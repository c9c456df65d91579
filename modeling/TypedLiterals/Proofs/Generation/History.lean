import TypedLiterals.Proofs.Generation.Artifacts
import TypedLiterals.Proofs.Generation.Update

/-!
What a cache says after any number of runs.

A run trusts the cache alone when it skips a literal. So every entry must name the declaration that it
should and have both its artifacts on the disk, whatever runs and edits came before.
-/

namespace TypedLiterals

open Disk (Place)

variable {project : Project} {engine : Engine} {seed : String} {options : Run.Options}
  {sources : List String} {workspace after : Workspace} {progress : Run.Progress} {report : Report}
  {source hash : String} {scanned : SourceScan} {partition : Partition} {known : KnownLiteral}
  {prepared disk : Disk} {cacheBase workBase : Place}

/-- Whether an entry names the declaration that it should and both artifacts are on the disk. -/
structure Backed (project : Project) (disk : Disk) (source hash : String) (known : KnownLiteral) : Prop where
  declaration : known.declaration = (project.location source hash).declarationRel
  files : ∀ path ∈ (project.location source hash).artifacts, disk.isFile path = true

theorem Backed.imp {before after : Disk} (backed : Backed project before source hash known)
    (files : ∀ path ∈ (project.location source hash).artifacts, before.isFile path = true →
      after.isFile path = true) : Backed project after source hash known :=
  ⟨backed.declaration, fun path member => files path member (backed.files path member)⟩

namespace Run

/-- What holds between the sources of a run that started on a prepared disk: all ways are kept, and every
entry is backed by artifacts that can be told apart. -/
structure Sound (project : Project) (prepared : Disk) (cacheBase workBase : Place)
    (progress : Progress) : Prop where
  ways : prepared.KeepsWays progress.workspace.disk
  links : ∀ place target, progress.workspace.disk.node? place = some (.link target) →
    prepared.node? place = some (.link target)
  entries : ∀ source hash known, (progress.cache.partition source).find? hash = some known →
    Project.Apt project prepared cacheBase workBase source ∧ Digest.IsDigest hash ∧
      Backed project progress.workspace.disk source hash known

theorem stepGeneration_keeps (faithful : Generation.Faithful engine) :
    progress.workspace.disk.Keeps
      (stepGeneration project engine seed options progress source scanned).2.disk :=
  stepGeneration_preserves (fun _ _ grows kept => kept.trans grows.keeps)
    (fun _ _ _ _ kept => kept.trans (faithful.keeps _ _)) (.refl _)

theorem stepRewriting_keeps (project : Project) (engine : Engine) (seed : String) (options : Run.Options)
    (progress : Progress) (source : String) (scanned : SourceScan) :
    (pruned project seed source scanned (progress.cache.partition source)
      (stepGeneration project engine seed options progress source scanned).2.disk).Keeps
        (stepRewriting project engine seed options progress source scanned).2 :=
  writeRewritten_preserves (fun _ _ grows kept => kept.trans grows.keeps)
    (fun _ _ _ wrote kept => kept.trans (Disk.keeps_write wrote)) (.refl _)

/-- What succeeds in generating leaves both artifacts of every literal that the cache did not have. -/
theorem stepGeneration_made {count : Nat} (faithful : Generation.Faithful engine)
    (inline : options.timing = .inline)
    (ok : (stepGeneration project engine seed options progress source scanned).1 = .ok count)
    {occurrence : Occurrence} (member : occurrence ∈ scanned.occurrences)
    (unknown : (progress.cache.partition source).find? (fingerprint seed occurrence.literal) = none) :
    ∀ path ∈ (project.location source (fingerprint seed occurrence.literal)).artifacts,
      (stepGeneration project engine seed options progress source scanned).2.disk.isFile path = true := by
  unfold stepGeneration generation at ok ⊢
  rw [inline] at ok ⊢
  have listed : Plan.record project seed source (progress.cache.partition source) occurrence ∈
      (Plan.ofScan project seed source scanned (progress.cache.partition source)).records := by
    rw [records_ofScan]
    exact List.mem_map_of_mem member
  have wanted : (Plan.record project seed source (progress.cache.partition source) occurrence).skip =
      false := by
    rw [record_skip, ← Bool.not_eq_true, Table.contains_eq_true, unknown]
    simp
  obtain ⟨other, alsoListed, _, hashes, module, declaration⟩ :=
    generateMissing_made faithful ok listed wanted
  rw [records_ofScan] at alsoListed
  obtain ⟨also, _, rfl⟩ := List.mem_map.mp alsoListed
  rw [record_location] at module declaration
  rw [record_hash, record_hash] at hashes
  rw [hashes] at module declaration
  intro path inside
  rcases List.mem_pair.mp inside with same | same
  · rw [same]
    exact module
  · rw [same]
    exact declaration

theorem mem_artifacts_of_mem_discarded {path : Path}
    (entries : ∀ hash known, partition.find? hash = some known →
      known.declaration = (project.location source hash).declarationRel)
    (member : path ∈ discarded project seed source scanned partition) :
    ∃ hash ∈ (Plan.ofScan project seed source scanned partition).stale,
      path ∈ (project.location source hash).artifacts := by
  obtain ⟨hash, stale, inside⟩ := List.mem_flatMap.mp member
  obtain ⟨⟨known, found⟩, _⟩ := mem_stale.mp stale
  refine ⟨hash, stale, ?_⟩
  rw [staleArtifacts, find?_recordEntries_of_known found, Option.map_some, Option.toList_some,
    entries hash known found, ← Project.declaration_location] at inside
  exact List.mem_pair.mpr (List.mem_pair.mp inside).symm

/-- What pruning a source leaves: all ways, and every artifact that belongs to no stale entry of it. -/
structure Spared (project : Project) (cacheBase workBase : Place) (source : String) (stale : List String)
    (before after : Disk) : Prop where
  ways : before.KeepsWays after
  links : ∀ place target, after.node? place = some (.link target) → before.node? place = some (.link target)
  files : ∀ other hash, Project.Apt project before cacheBase workBase other → Digest.IsDigest hash →
    ¬ (other = source ∧ hash ∈ stale) → ∀ path ∈ (project.location other hash).artifacts,
      before.isFile path = true → after.isFile path = true

theorem spared_pruned (seed : String) (scanned : SourceScan)
    (sites : Project.Sites project disk cacheBase workBase)
    (apt : Project.Apt project disk cacheBase workBase source)
    (digests : ∀ hash known, partition.find? hash = some known → Digest.IsDigest hash)
    (entries : ∀ hash known, partition.find? hash = some known →
      known.declaration = (project.location source hash).declarationRel) :
    Spared project cacheBase workBase source (Plan.ofScan project seed source scanned partition).stale disk
      (pruned project seed source scanned partition disk) := by
  refine pruned_preserves ?_ ⟨.refl disk, fun _ _ link => link, fun _ _ _ _ _ _ _ file => file⟩
  intro removed member middle spared
  obtain ⟨gone, stale, artifact⟩ := mem_artifacts_of_mem_discarded entries member
  obtain ⟨⟨known, found⟩, _⟩ := mem_stale.mp stale
  have digest := digests gone known found
  have sitesNow := sites.of_keepsWays spared.ways
  have aptNow := apt.of_links spared.links
  have removal := Project.removeArtifact_eq sitesNow aptNow digest artifact
  refine ⟨spared.ways.trans ?_, fun place target link => spared.links place target ?_, ?_⟩
  · rcases removal with same | ⟨place, _, isFile, same⟩
    · rw [same]
      exact .refl middle
    · rw [same]
      exact Disk.keepsWays_erase isFile
  · rcases removal with same | ⟨place, _, _, same⟩
    · rwa [same] at link
    · rw [same] at link
      exact Disk.links_erase link
  · intro other hash otherApt otherDigest kept path inside file
    refine Project.isFile_removeArtifact sitesNow (otherApt.of_links spared.links) otherDigest inside aptNow
      digest artifact ?_ (spared.files other hash otherApt otherDigest kept path inside file)
    rintro ⟨sameSource, sameHash⟩
    exact kept ⟨sameSource, sameHash ▸ stale⟩

/-- The literals that have an entry after a source was processed: those that had one and are still in
use, and those of calls that had none. -/
theorem entryAfter_eq_some
    (found : Partition.entryAfter project seed source scanned partition hash = some known) :
    (partition.find? hash = some known ∧ hash ∈ scanned.hashesInUse seed) ∨
    (known.declaration = (project.location source hash).declarationRel ∧ partition.find? hash = none ∧
      ∃ occurrence ∈ scanned.occurrences, fingerprint seed occurrence.literal = hash) := by
  unfold Partition.entryAfter at found
  generalize (project.location source hash).declarationRel = derived at found ⊢
  cases old : partition.find? hash with
  | some entry =>
      rw [old] at found
      dsimp only at found
      split at found
      · next used => exact .inl ⟨by rw [← found], used⟩
      · contradiction
  | none =>
      rw [old] at found
      obtain ⟨occurrence, last, rfl⟩ := Option.map_eq_some_iff.mp found
      have same : fingerprint seed occurrence.literal = hash := by
        have fits := List.find?_some last
        rwa [decide_eq_true_eq] at fits
      exact .inr ⟨rfl, rfl, occurrence, List.mem_reverse.mp (List.mem_of_find?_eq_some last), same⟩

/-- Freeing and rewriting a source spare all artifacts but those of its stale entries. -/
theorem Sound.isFile_rewriting {other : String} {path : Path}
    (sound : Sound project prepared cacheBase workBase progress) (faithful : Generation.Faithful engine)
    (sites : Project.Sites project prepared cacheBase workBase)
    (apt : Project.Apt project prepared cacheBase workBase source)
    (otherApt : Project.Apt project prepared cacheBase workBase other) (digest : Digest.IsDigest hash)
    (kept : ¬ (other = source ∧
      hash ∈ (Plan.ofScan project seed source scanned (progress.cache.partition source)).stale))
    (member : path ∈ (project.location other hash).artifacts)
    (file : (stepGeneration project engine seed options progress source scanned).2.disk.isFile path = true) :
    (stepRewriting project engine seed options progress source scanned).2.isFile path = true := by
  have generated : progress.workspace.disk.Keeps
      (stepGeneration project engine seed options progress source scanned).2.disk :=
    stepGeneration_keeps faithful
  have waysGenerated := sound.ways.trans generated.ways
  have linksGenerated := fun place target link => sound.links place target (generated.links place target link)
  have spared := spared_pruned seed scanned (sites.of_keepsWays waysGenerated)
    (apt.of_links linksGenerated)
    (fun hash known found => (sound.entries source hash known found).2.1)
    (fun hash known found => (sound.entries source hash known found).2.2.declaration)
  exact (stepRewriting_keeps project engine seed options progress source scanned).isFile
    (spared.files other hash (otherApt.of_links linksGenerated) digest kept path member file)

/-- A step spares all artifacts but those of the stale entries of its source. -/
theorem Sound.isFile_step {other : String} {path : Path}
    (sound : Sound project prepared cacheBase workBase progress) (faithful : Generation.Faithful engine)
    (sites : Project.Sites project prepared cacheBase workBase)
    (apt : Project.Apt project prepared cacheBase workBase source)
    (otherApt : Project.Apt project prepared cacheBase workBase other) (digest : Digest.IsDigest hash)
    (kept : ¬ (other = source ∧
      hash ∈ (Plan.ofScan project seed source scanned (progress.cache.partition source)).stale))
    (member : path ∈ (project.location other hash).artifacts)
    (file : progress.workspace.disk.isFile path = true) :
    (Run.step project engine seed options progress source scanned).workspace.disk.isFile path = true := by
  have generated : progress.workspace.disk.Keeps
      (stepGeneration project engine seed options progress source scanned).2.disk :=
    stepGeneration_keeps faithful
  have rewritten : (stepRewriting project engine seed options progress source scanned).2.isFile path = true :=
    sound.isFile_rewriting faithful sites apt otherApt digest kept member (generated.isFile file)
  rcases step_cases project engine seed options progress source scanned with
    ⟨_, _, same, stepped⟩ | ⟨_, _, _, _, _, stepped⟩ | ⟨_, _, _, _, _, stepped⟩
  · rw [same] at generated
    rw [stepped]
    exact generated.isFile file
  · rw [stepped]
    exact rewritten
  · rw [stepped]
    exact rewritten

/-- A step leaves a run sound, unless the source fails to be written. -/
theorem Sound.step (sound : Sound project prepared cacheBase workBase progress)
    (faithful : Generation.Faithful engine) (inline : options.timing = .inline)
    (sites : Project.Sites project prepared cacheBase workBase)
    (apt : Project.Apt project prepared cacheBase workBase source)
    (written : ¬ FailsLate project engine seed options progress source scanned) :
    Sound project prepared cacheBase workBase (step project engine seed options progress source scanned) := by
  have generated : progress.workspace.disk.Keeps
      (stepGeneration project engine seed options progress source scanned).2.disk :=
    stepGeneration_keeps faithful
  have waysGenerated := sound.ways.trans generated.ways
  have linksGenerated := fun place target link => sound.links place target (generated.links place target link)
  -- A failed generation keeps all entries and has only added files, a failed rewriting is shut out, and after
  -- a good one an entry is an old one that was not pruned or belongs to a literal that was generated here.
  rcases step_cases project engine seed options progress source scanned with
    ⟨cause, after, same, stepped⟩ | ⟨count, after, cause, same, failed, _⟩ |
      ⟨count, after, path, same, _, stepped⟩
  · rw [same] at generated waysGenerated linksGenerated
    rw [stepped]
    refine ⟨waysGenerated, linksGenerated, fun other hash known found => ?_⟩
    rw [Progress.failed, Cache.partition_insert] at found
    have old : (progress.cache.partition other).find? hash = some known := by
      split at found
      · next equal => rwa [equal]
      · exact found
    obtain ⟨otherApt, digest, backed⟩ := sound.entries other hash known old
    exact ⟨otherApt, digest, backed.imp fun path _ file => generated.isFile file⟩
  · exact absurd ⟨⟨count, by rw [same]⟩, cause, failed⟩ written
  · have spared := spared_pruned seed scanned (sites.of_keepsWays waysGenerated)
      (apt.of_links linksGenerated)
      (fun hash known found => (sound.entries source hash known found).2.1)
      (fun hash known found => (sound.entries source hash known found).2.2.declaration)
    have rewritten := stepRewriting_keeps project engine seed options progress source scanned
    have files : ∀ other hash, Project.Apt project prepared cacheBase workBase other →
        Digest.IsDigest hash →
        ¬ (other = source ∧
          hash ∈ (Plan.ofScan project seed source scanned (progress.cache.partition source)).stale) →
        ∀ path ∈ (project.location other hash).artifacts,
          (stepGeneration project engine seed options progress source scanned).2.disk.isFile path = true →
          (stepRewriting project engine seed options progress source scanned).2.isFile path = true :=
      fun other hash otherApt digest kept path member file =>
        sound.isFile_rewriting faithful sites apt otherApt digest kept member file
    rw [stepped]
    refine ⟨(waysGenerated.trans spared.ways).trans rewritten.ways,
      fun place target link =>
        linksGenerated place target (spared.links place target (rewritten.links place target link)),
      fun other hash known found => ?_⟩
    rw [Progress.done, Cache.partition_insert] at found
    by_cases equal : other = source
    · subst equal
      rw [if_pos rfl, find?_updated] at found
      rcases entryAfter_eq_some found with ⟨old, used⟩ | ⟨derived, unknown, occurrence, member, hashes⟩
      · obtain ⟨otherApt, digest, backed⟩ := sound.entries other hash known old
        refine ⟨otherApt, digest, backed.imp fun path inside file => ?_⟩
        exact files other hash otherApt digest (fun stale => (mem_stale.mp stale.2).2 used) path inside
          (generated.isFile file)
      · have digest : Digest.IsDigest hash := hashes ▸ isDigest_fingerprint seed occurrence.literal
        have fresh := unknown
        rw [← hashes] at fresh
        have made := stepGeneration_made faithful inline (by rw [same]) member fresh
        rw [hashes] at made
        refine ⟨apt, digest, derived, fun path inside => ?_⟩
        refine files other hash apt digest (fun stale => ?_) path inside (made path inside)
        obtain ⟨⟨known, also⟩, _⟩ := mem_stale.mp stale.2
        exact Option.some_ne_none known (also.symm.trans unknown)
    · rw [if_neg equal] at found
      obtain ⟨otherApt, digest, backed⟩ := sound.entries other hash known found
      refine ⟨otherApt, digest, backed.imp fun path inside file => ?_⟩
      exact files other hash otherApt digest (fun stale => equal stale.1) path inside (generated.isFile file)

theorem Sound.last (sound : Sound project prepared cacheBase workBase (start project sources workspace))
    (faithful : Generation.Faithful engine) (inline : options.timing = .inline)
    (sites : Project.Sites project prepared cacheBase workBase)
    (apt : ∀ pair ∈ filled workspace.disk project sources,
      Project.Apt project prepared cacheBase workBase pair.1)
    (written : ∀ source scanned,
      ¬ FailsWriting project engine seed options sources workspace source scanned) :
    Sound project prepared cacheBase workBase
      (last project engine seed options sources workspace) := by
  unfold Run.last
  refine steps_induction _ (fun front pair back split sound => ?_) sound
  exact sound.step faithful inline sites (apt pair (by simp [split]))
    fun late => written pair.1 pair.2 ⟨front, back, split, late⟩

theorem last_letter_of_mem (name : String) (base : Place)
    (member : name ∈ [Cache.fileName, Cache.fileName ++ ".tmp"]) :
    Project.lastLetter (base ++ [name]) ≠ some 'x' ∧ Project.lastLetter (base ++ [name]) ≠ some 's' := by
  rw [Project.lastLetter, List.getLast?_concat, Option.bind_some]
  rcases List.mem_pair.mp member with rfl | rfl
  · decide
  · decide

/-- The end of a run spares all artifacts, as none has the name of the document. -/
theorem Sound.isFile_finish {path : Path} (sound : Sound project prepared cacheBase workBase progress)
    (sites : Project.Sites project prepared cacheBase workBase)
    (unlinked : Cache.Unlinked project prepared)
    (finished : finish project options progress = (.ok report, after))
    (apt : Project.Apt project prepared cacheBase workBase source) (digest : Digest.IsDigest hash)
    (member : path ∈ (project.location source hash).artifacts)
    (file : progress.workspace.disk.isFile path = true) : after.disk.isFile path = true := by
  obtain ⟨ready, kept, waysAfter, _, others, _⟩ := finish_saved progress.workspace.disk.Keeps
    (fun _ _ grows kept => kept.trans grows.keeps)
    (fun _ _ _ _ wrote kept => kept.trans (Disk.keeps_write wrote))
    (fun _ kept => sound.ways.trans kept.ways)
    (fun _ kept place target link => sound.links place target (kept.links place target link))
    sites.cache unlinked (.refl progress.workspace.disk) finished
  have links := fun place target link => sound.links place target (kept.links place target link)
  refine Project.isFile_of_places (sites.of_keepsWays (sound.ways.trans kept.ways)) (apt.of_links links)
    digest member waysAfter (fun place inside => ?_) (kept.isFile file)
  have letters := Project.lastLetter_of_mem_artifactPlaces apt.descends digest inside
  refine others place ?_ ?_
  · rintro rfl
    have apart := last_letter_of_mem Cache.fileName cacheBase List.mem_cons_self
    exact letters.elim apart.1 apart.2
  · rintro rfl
    have apart := last_letter_of_mem (Cache.fileName ++ ".tmp") cacheBase
      (List.mem_cons_of_mem _ List.mem_cons_self)
    exact letters.elim apart.1 apart.2

theorem Sound.loaded (sound : Sound project prepared cacheBase workBase progress)
    (sites : Project.Sites project prepared cacheBase workBase)
    (unlinked : Cache.Unlinked project prepared)
    (finished : finish project options progress = (.ok report, after)) :
    Cache.load after.disk project = progress.cache.withoutEmpty := by
  obtain ⟨_, _, _, _, _, loaded⟩ := finish_saved progress.workspace.disk.Keeps
    (fun _ _ grows kept => kept.trans grows.keeps)
    (fun _ _ _ _ wrote kept => kept.trans (Disk.keeps_write wrote))
    (fun _ kept => sound.ways.trans kept.ways)
    (fun _ kept place target link => sound.links place target (kept.links place target link))
    sites.cache unlinked (.refl progress.workspace.disk) finished
  exact loaded

theorem Sound.finish (sound : Sound project prepared cacheBase workBase progress)
    (sites : Project.Sites project prepared cacheBase workBase)
    (unlinked : Cache.Unlinked project prepared)
    (finished : finish project options progress = (.ok report, after))
    (found : (Cache.partition (Cache.load after.disk project) source).find? hash = some known) :
    Project.Apt project prepared cacheBase workBase source ∧ Digest.IsDigest hash ∧
      Backed project after.disk source hash known := by
  rw [sound.loaded sites unlinked finished, Cache.partition_withoutEmpty] at found
  obtain ⟨apt, digest, backed⟩ := sound.entries source hash known found
  exact ⟨apt, digest, backed.imp fun path member file =>
    sound.isFile_finish sites unlinked finished apt digest member file⟩

end Run

/-! ## Histories -/

/-- The runs of a history: they generate themselves, with an engine that takes nothing away, over sources
that never lead up. Once the directories are made no link stands on the way from them to an artifact, nor
at the names of the cache document, and no source fails only when it is written. -/
structure Ordinary (project : Project) (engine : Engine) (seed : String) (options : Run.Options)
    (sources : List String) (workspace : Workspace) : Prop where
  inline : options.timing = .inline
  real : options.dryRun = false
  faithful : Generation.Faithful engine
  descends : ∀ source ∈ sources, Path.Descends source
  unlinked : Cache.Unlinked project (Run.ensureDirectories project workspace.disk).2
  clear : ∀ cacheBase workBase,
    Project.Sites project (Run.ensureDirectories project workspace.disk).2 cacheBase workBase →
    ∀ source, (source ∈ sources.map Path.slashed ∨ ∃ hash known,
        (Cache.partition (Cache.load workspace.disk project) source).find? hash = some known) →
      Project.ArtifactsClear project (Run.ensureDirectories project workspace.disk).2 cacheBase workBase
        source
  written : ∀ source scanned,
    ¬ Run.FailsWriting project engine seed options sources workspace source scanned

/-- The disks that a project comes by from one without a cache, by runs and by edits that leave the cache
document and the artifacts of its entries. -/
inductive History (project : Project) : Disk → Prop
  | start {disk : Disk} (empty : Cache.load disk project = .empty) : History project disk
  | edit {before after : Disk} (earlier : History project before)
      (cache : Cache.load after project = Cache.load before project)
      (artifacts : ∀ source hash known,
        (Cache.partition (Cache.load before project) source).find? hash = some known →
        ∀ path ∈ (project.location source hash).artifacts, before.isFile path = true →
          after.isFile path = true) : History project after
  | run {engine : Engine} {seed : String} {options : Run.Options} {sources : List String}
      {workspace after : Workspace} {report : Report} (earlier : History project workspace.disk)
      (ordinary : Ordinary project engine seed options sources workspace)
      (ran : run project engine seed options sources workspace = (.ok report, after)) :
      History project after.disk

/-- Whether every entry of the cache on a disk belongs to a canonical source and a fingerprint and is
backed. -/
def Trustworthy (project : Project) (disk : Disk) : Prop :=
  ∀ source hash known, (Cache.partition (Cache.load disk project) source).find? hash = some known →
    Path.slashed source = source ∧ Path.Descends source ∧ Digest.IsDigest hash ∧
      Backed project disk source hash known

/-- A project with an entry or with a source that was read has a working directory. -/
theorem Trustworthy.opens (trustworthy : Trustworthy project disk)
    (found : (Cache.partition (Cache.load disk project) source).find? hash = some known) :
    ∃ workBase, disk.Opens project.workingDir workBase := by
  obtain ⟨_, descends, digest, backed⟩ := trustworthy source hash known found
  obtain ⟨_, place, leads, _⟩ := Disk.isFile_iff.mp
    (backed.files (project.location source hash).declaration (by simp [Location.artifacts]))
  rw [Project.declaration_location] at leads
  refine Path.opens_of_leads_joinSlashed leads ?_
  rw [Project.pathNames_declarationRel project descends.1 digest, Project.declarationNames]
  exact List.append_ne_nil_of_right_ne_nil _
    (List.append_ne_nil_of_right_ne_nil _ Location.fileNames_ne_nil)

theorem Path.Descends.slashed (descends : Path.Descends source) : Path.Descends (Path.slashed source) := by
  rwa [Path.Descends, Path.slashPieces_slashed]

theorem Run.opens_of_mem_filled {pair : String × SourceScan} (descends : Path.Descends pair.1)
    (canonical : Path.slashed pair.1 = pair.1) (member : pair ∈ Run.filled disk project sources) :
    ∃ workBase, disk.Opens project.workingDir workBase := by
  have scan := Run.scanFile_of_mem_filled member
  unfold Run.scanFile at scan
  dsimp only at scan
  cases text : disk.readText (project.workingDir.joinSlashed pair.1) with
  | error cause => simp [text] at scan
  | ok content =>
      cases read : disk.read (project.workingDir.joinSlashed pair.1) with
      | error cause => simp [Disk.readText, read, bind, Except.bind] at text
      | ok bytes =>
          obtain ⟨_, place, leads, _⟩ := Disk.read_eq_ok_iff.mp read
          refine Path.opens_of_leads_joinSlashed leads ?_
          rw [← canonical, Path.slashed,
            Path.pathNames_joinSlashes fun _ inside => Path.isPiece_of_mem_slashPieces inside]
          simpa using descends.1

theorem Ordinary.canonical (ordinary : Ordinary project engine seed options sources workspace)
    {pair : String × SourceScan} (member : pair ∈ Run.filled workspace.disk project sources) :
    Path.slashed pair.1 = pair.1 ∧ Path.Descends pair.1 := by
  obtain ⟨source, listed, same⟩ := List.mem_map.mp (Run.mem_slashed_of_mem_filled member)
  rw [← same]
  exact ⟨Path.slashed_slashed source, (ordinary.descends source listed).slashed⟩

/-- A run of a history that starts with a trustworthy cache is sound before its first source. -/
theorem Ordinary.sound (ordinary : Ordinary project engine seed options sources workspace)
    (trustworthy : Trustworthy project workspace.disk)
    (sites : Project.Sites project (Run.ensureDirectories project workspace.disk).2 cacheBase workBase) :
    Run.Sound project (Run.ensureDirectories project workspace.disk).2 cacheBase workBase
        (Run.start project sources workspace) ∧
      ∀ pair ∈ Run.filled workspace.disk project sources,
        Project.Apt project (Run.ensureDirectories project workspace.disk).2 cacheBase workBase pair.1 := by
  have grows := Run.ensureDirectories_grows project workspace.disk
  have clear := ordinary.clear cacheBase workBase sites
  refine ⟨⟨?_, ?_, ?_⟩, fun pair member => ?_⟩
  · rw [Run.start_disk]
    exact .refl _
  · rw [Run.start_disk]
    exact fun _ _ link => link
  · rw [Run.start_disk, Run.start_cache]
    intro source hash known found
    obtain ⟨spelled, descends, digest, backed⟩ := trustworthy source hash known found
    exact ⟨⟨spelled, descends, clear source (.inr ⟨hash, known, found⟩)⟩, digest,
      backed.imp fun _ _ file => grows.keeps.isFile file⟩
  · obtain ⟨spelled, descends⟩ := ordinary.canonical member
    exact ⟨spelled, descends, clear pair.1 (.inl (Run.mem_slashed_of_mem_filled member))⟩

/-- A run of a history leaves a trustworthy cache trustworthy. -/
theorem Trustworthy.run (trustworthy : Trustworthy project workspace.disk)
    (ordinary : Ordinary project engine seed options sources workspace)
    (ran : run project engine seed options sources workspace = (.ok report, after)) :
    Trustworthy project after.disk := by
  by_cases present : sources = []
  · subst present
    cases ran
    exact trustworthy
  obtain ⟨made, finished⟩ := Run.run_eq_ok present ordinary.real ran
  obtain ⟨cacheBase, opens⟩ := Run.ensureDirectories_opens made
  have grows := Run.ensureDirectories_grows project workspace.disk
  intro source hash known found
  by_cases works : ∃ workBase, workspace.disk.Opens project.workingDir workBase
  · obtain ⟨workBase, work⟩ := works
    have sites : Project.Sites project (Run.ensureDirectories project workspace.disk).2 cacheBase workBase :=
      ⟨opens, work.of_keepsWays grows.keeps.ways⟩
    obtain ⟨sound, apt⟩ := ordinary.sound trustworthy sites
    obtain ⟨apt, digest, backed⟩ :=
      (sound.last ordinary.faithful ordinary.inline sites apt ordinary.written).finish sites
        ordinary.unlinked finished found
    exact ⟨apt.canonical, apt.descends, digest, backed⟩
  · -- Without a working directory no source was read and no entry was there, so none is kept.
    have none : Run.filled workspace.disk project sources = [] := by
      refine List.eq_nil_iff_forall_not_mem.mpr fun pair member => works ?_
      exact Run.opens_of_mem_filled (ordinary.canonical member).2 (ordinary.canonical member).1 member
    have same : Run.last project engine seed options sources workspace =
        Run.start project sources workspace := by
      unfold Run.last
      rw [none]
      rfl
    rw [same] at finished
    obtain ⟨_, _, _, _, _, loaded⟩ := Run.finish_saved
      (Run.ensureDirectories project workspace.disk).2.Keeps (fun _ _ grows kept => kept.trans grows.keeps)
      (fun _ _ _ _ wrote kept => kept.trans (Disk.keeps_write wrote)) (fun _ kept => kept.ways)
      (fun _ kept => kept.links) opens ordinary.unlinked (by rw [Run.start_disk]; exact .refl _) finished
    rw [loaded, Cache.partition_withoutEmpty, Run.start_cache] at found
    exact absurd (trustworthy.opens found) works

/-- A run of a history keeps an entry unless it processes the source and finds the literal in use no more. -/
theorem Ordinary.find?_of_run (ordinary : Ordinary project engine seed options sources workspace)
    (trustworthy : Trustworthy project workspace.disk)
    (ran : run project engine seed options sources workspace = (.ok report, after))
    (found : (Cache.partition (Cache.load workspace.disk project) source).find? hash = some known)
    (used : ∀ pair ∈ Run.filled workspace.disk project sources, pair.1 = source →
      hash ∈ pair.2.hashesInUse seed) :
    (Cache.partition (Cache.load after.disk project) source).find? hash = some known := by
  by_cases present : sources = []
  · subst present
    cases ran
    exact found
  obtain ⟨made, finished⟩ := Run.run_eq_ok present ordinary.real ran
  obtain ⟨cacheBase, opens⟩ := Run.ensureDirectories_opens made
  obtain ⟨workBase, work⟩ := trustworthy.opens found
  have sites : Project.Sites project (Run.ensureDirectories project workspace.disk).2 cacheBase workBase :=
    ⟨opens, work.of_keepsWays (Run.ensureDirectories_grows project workspace.disk).keeps.ways⟩
  obtain ⟨sound, apt⟩ := ordinary.sound trustworthy sites
  have loaded := (sound.last ordinary.faithful ordinary.inline sites apt ordinary.written).loaded sites
    ordinary.unlinked finished
  obtain ⟨_, _, _, listed, changed, kept⟩ := Run.report_of_run present ordinary.real ran
  rw [loaded, Cache.partition_withoutEmpty]
  by_cases processed : source ∈ report.processed.map (·.source)
  · obtain ⟨pair, member, rfl⟩ := List.mem_map.mp (listed.subset (List.mem_append_left _ processed))
    rw [changed pair member processed, Run.find?_updated, Partition.entryAfter, found]
    exact if_pos (used pair member rfl)
  · rw [kept source processed, found]

/-- An edit that leaves the cache document and the artifacts of its entries leaves a trustworthy cache so. -/
theorem Trustworthy.edit {before after : Disk} (trustworthy : Trustworthy project before)
    (cache : Cache.load after project = Cache.load before project)
    (artifacts : ∀ source hash known,
      (Cache.partition (Cache.load before project) source).find? hash = some known →
      ∀ path ∈ (project.location source hash).artifacts, before.isFile path = true →
        after.isFile path = true) : Trustworthy project after := by
  intro source hash known found
  rw [cache] at found
  obtain ⟨canonical, descends, digest, backed⟩ := trustworthy source hash known found
  exact ⟨canonical, descends, digest, backed.imp (artifacts source hash known found)⟩

theorem History.trustworthy (history : History project disk) : Trustworthy project disk := by
  induction history with
  | start empty =>
      intro source hash known found
      rw [empty] at found
      simp [Cache.partition] at found
  | edit _ cache artifacts ih => exact ih.edit cache artifacts
  | run _ ordinary ran ih => exact ih.run ordinary ran

/-- After any history every entry of the cache names the declaration that it should, and both its
declaration and its typed module are on the disk. -/
theorem history_entries_backed (history : History project disk)
    (found : (Cache.partition (Cache.load disk project) source).find? hash = some known) :
    known.declaration = (project.location source hash).declarationRel ∧
      disk.isFile (project.location source hash).declaration = true ∧
      disk.isFile (project.location source hash).module = true := by
  obtain ⟨_, _, _, backed⟩ := history.trustworthy source hash known found
  exact ⟨backed.declaration, backed.files _ (by simp [Location.artifacts]),
    backed.files _ (by simp [Location.artifacts])⟩

open Run in
theorem history_entries_backed_small :
    ∃ disk hash known, History smallProject disk ∧
      (Cache.partition (Cache.load disk smallProject) "a.ts").find? hash = some known ∧
      known.declaration = (smallProject.location "a.ts" hash).declarationRel ∧
      disk.isFile (smallProject.location "a.ts" hash).declaration = true ∧
      disk.isFile (smallProject.location "a.ts" hash).module = true := by
  have reported := smallRun_report
  have empty : Cache.load smallDisk smallProject = .empty := Table.eq_empty (by decide +kernel)
  cases ran : run smallProject blankEngine "" smallOptions ["a.ts"] ⟨smallDisk, []⟩ with
  | mk result after =>
      rw [ran] at reported
      cases result with
      | error cause => cases reported
      | ok report =>
          obtain ⟨processed, failures⟩ := Prod.mk.inj (Option.some.inj reported)
          have present : ["a.ts"] ≠ [] := by decide
          have noLink : ∀ place target,
              (ensureDirectories smallProject smallDisk).2.node? place ≠ some (.link target) :=
            fun place target link => smallDisk_noLink place target
              ((ensureDirectories_grows smallProject smallDisk).keeps.links place target link)
          have ordinary : Ordinary smallProject blankEngine "" smallOptions ["a.ts"] ⟨smallDisk, []⟩ := by
            refine ⟨rfl, rfl, faithful_blankEngine, ?_, fun _ _ _ _ _ => noLink _ _,
              fun _ _ _ _ _ =>
                ⟨fun _ => Disk.clear_of_noLink noLink _ _, fun _ => Disk.clear_of_noLink noLink _ _⟩,
              fun source scanned late => ?_⟩
            · intro source listed
              rw [List.mem_singleton.mp listed]
              exact ⟨by decide, by decide⟩
            · have failed := late.mem_failures present rfl ran
              rw [failures] at failed
              cases failed
          have history : History smallProject after.disk := .run (.start empty) ordinary ran
          have unlinked := unlinked_beforeSave (fun request disk => (faithful_blankEngine.keeps request disk).links)
            (fun _ _ _ => smallDisk_noLink _) ran present rfl
          obtain ⟨scanned, _, literals, entries⟩ := partition_of_processed present rfl unlinked ran
            (show "a.ts" ∈ report.processed.map (·.source) by simp [processed])
          obtain ⟨known, entry⟩ := Partition.exists_entryAfter (List.head_mem literals)
          have found := (entries _).trans entry
          exact ⟨after.disk, _, known, history, found, history_entries_backed history found⟩

open Run in
/-- A disk on which a typed module is to be written through a link to the place for a new document. -/
def borrowedDisk : Disk :=
  ⟨smallDisk.entries ++ [(["c"], .directory), (["c", "t"], .directory),
    (["c", "t", "a.ts-" ++ fingerprint "" "a" ++ ".tsx"], .link "../literals.json.tmp")]⟩

open Run in
/-- A link among the artifacts can cost a typed module: here it is moved away as the new document. -/
theorem run_loses_module_borrowed :
    ∃ report after, Cache.load borrowedDisk smallProject = .empty ∧
      run smallProject blankEngine "" smallOptions ["a.ts"] ⟨borrowedDisk, []⟩ = (.ok report, after) ∧
      report.failures = [] ∧ ∃ known,
        (Cache.partition (Cache.load after.disk smallProject) "a.ts").find? (fingerprint "" "a") = some known ∧
        after.disk.isFile (smallProject.location "a.ts" (fingerprint "" "a")).module = false := by
  have lost :
      let outcome := run smallProject blankEngine "" smallOptions ["a.ts"] ⟨borrowedDisk, []⟩
      (Cache.load borrowedDisk smallProject).isEmpty = true ∧
        outcome.1.toOption.map (·.failures.isEmpty) = some true ∧
        (Cache.partition (Cache.load outcome.2.disk smallProject) "a.ts").contains (fingerprint "" "a") = true ∧
        outcome.2.disk.isFile (smallProject.location "a.ts" (fingerprint "" "a")).module = false := by
    decide +kernel
  cases ran : run smallProject blankEngine "" smallOptions ["a.ts"] ⟨borrowedDisk, []⟩ with
  | mk result after =>
      rw [ran] at lost
      obtain ⟨isEmpty, complete, known, gone⟩ := lost
      cases result with
      | error cause => cases complete
      | ok report =>
          obtain ⟨entry, found⟩ := Table.contains_eq_true.mp known
          exact ⟨report, after, Table.eq_empty isEmpty, rfl,
            List.isEmpty_iff.mp (Option.some.inj complete), entry, found, gone⟩

end TypedLiterals
