import TypedLiterals.Proofs.Generation.Run
import TypedLiterals.Proofs.Location

/-!
Artifacts on a disk.

As long as the cache directory and the working directory stay where they are, and no link stands between
them and the artifacts, an artifact is only lost when it is removed itself. What generates without a
failure leaves both artifacts of every literal.
-/

namespace TypedLiterals

open Disk (Place Spot)

variable {project : Project} {before after disk : Disk} {cacheBase workBase : Place}
  {source other hash hash' : String} {path : Path} {spot : Spot} {follow : Bool}

/-- The paths of both artifacts. -/
def Location.artifacts (location : Location) : List Path :=
  [location.module, location.declaration]

namespace Project

/-- Where the directories above all artifacts stand on a disk. -/
structure Sites (project : Project) (disk : Disk) (cacheBase workBase : Place) : Prop where
  cache : disk.Opens project.cacheDir cacheBase
  work : disk.Opens project.workingDir workBase

theorem Sites.of_keepsWays (ways : before.KeepsWays after)
    (sites : Sites project before cacheBase workBase) : Sites project after cacheBase workBase :=
  ⟨sites.cache.of_keepsWays ways, sites.work.of_keepsWays ways⟩

/-- Whether no link stands between these directories and the artifacts of a source. -/
structure ArtifactsClear (project : Project) (disk : Disk) (cacheBase workBase : Place)
    (source : String) : Prop where
  modules : ∀ hash, disk.Clear cacheBase (project.moduleNames source hash)
  declarations : ∀ hash, disk.Clear workBase (project.declarationNames source hash)

theorem ArtifactsClear.of_links (links : ∀ place target, after.node? place = some (.link target) →
    before.node? place = some (.link target))
    (clear : ArtifactsClear project before cacheBase workBase source) :
    ArtifactsClear project after cacheBase workBase source :=
  ⟨fun hash => (clear.modules hash).of_links links, fun hash => (clear.declarations hash).of_links links⟩

theorem clear_last_fileNames {base : Place} {front : List String} {suffix : String}
    (descends : Path.Descends source) (digest : Digest.IsDigest hash)
    (clear : disk.Clear base (front ++ Location.fileNames source hash suffix)) (target : String) :
    disk.node? (Disk.resolve base (front ++ Location.fileNames source hash suffix)) ≠
      some (.link target) := by
  have plain : ∀ name ∈ Location.fileNames source hash suffix, Disk.IsPlain name :=
    Location.isPlain_of_mem_fileNames descends digest
  obtain ⟨early, stem, same⟩ := Location.getLast_fileNames source hash suffix
  rw [same] at clear plain ⊢
  rw [← List.append_assoc] at clear ⊢
  exact clear.last (plain _ (by simp)) target

/-- The path of an artifact leads to its place, and to no link there. -/
theorem place_of_walks (sites : Sites project disk cacheBase workBase)
    (clear : ArtifactsClear project disk cacheBase workBase source) (descends : Path.Descends source)
    (digest : Digest.IsDigest hash) (member : path ∈ (project.location source hash).artifacts)
    (walks : disk.Walks follow Disk.linkLimit [] (Disk.pathNames path.text) spot) :
    spot.place ∈ project.artifactPlaces cacheBase workBase source hash ∧
      ∀ target, disk.node? spot.place ≠ some (.link target) := by
  rcases List.mem_pair.mp member with same | same
  · rw [same, pathNames_module project descends.1 digest] at walks
    obtain ⟨left, rest⟩ := walks.of_led
      (List.append_ne_nil_of_right_ne_nil _ Location.fileNames_ne_nil) sites.cache.1
    have place := rest.place_eq (clear.modules hash)
    refine ⟨by simp [artifactPlaces, place], fun target => ?_⟩
    rw [place]
    exact clear_last_fileNames descends digest (clear.modules hash) target
  · rw [same, pathNames_declaration project descends.1 digest] at walks
    obtain ⟨left, rest⟩ := walks.of_led (List.append_ne_nil_of_right_ne_nil _
      (List.append_ne_nil_of_right_ne_nil _ Location.fileNames_ne_nil)) sites.work.1
    have place := rest.place_eq (clear.declarations hash)
    refine ⟨by simp [artifactPlaces, place], fun target => ?_⟩
    have noLink := clear.declarations hash
    rw [declarationNames, ← List.append_assoc] at noLink
    rw [place, declarationNames, ← List.append_assoc]
    exact clear_last_fileNames descends digest noLink target

/-- Sources whose artifacts can be told apart on a disk: in canonical spelling, never leading up, and with
no link on the way to their artifacts. -/
structure Apt (project : Project) (disk : Disk) (cacheBase workBase : Place) (source : String) : Prop where
  canonical : Path.slashed source = source
  descends : Path.Descends source
  clear : ArtifactsClear project disk cacheBase workBase source

theorem Apt.of_links (links : ∀ place target, after.node? place = some (.link target) →
    before.node? place = some (.link target)) (apt : Apt project before cacheBase workBase source) :
    Apt project after cacheBase workBase source :=
  ⟨apt.canonical, apt.descends, apt.clear.of_links links⟩

/-- Removing an artifact takes a file away from the place of an artifact, or does nothing. -/
theorem removeArtifact_eq (sites : Sites project disk cacheBase workBase)
    (apt : Apt project disk cacheBase workBase source) (digest : Digest.IsDigest hash)
    (member : path ∈ (project.location source hash).artifacts) :
    Run.removeArtifact disk path = disk ∨
      ∃ place ∈ project.artifactPlaces cacheBase workBase source hash,
        (∀ node, disk.node? place = some node → node.IsFile) ∧
        Run.removeArtifact disk path = disk.erase place := by
  obtain same | ⟨place, _, walks, notDirectory, same⟩ := Run.removeArtifact_cases disk path
  · exact .inl same
  · obtain ⟨found, noLink⟩ := place_of_walks sites apt.clear apt.descends digest member walks
    refine .inr ⟨place, found, fun node stands => ?_, same⟩
    cases node with
    | file content => exact ⟨content, rfl⟩
    | directory => exact absurd stands notDirectory
    | link target => exact absurd stands (noLink target)

/-- An artifact stays where all ways stay and nothing changes at the places of its literal. -/
theorem isFile_of_places (sites : Sites project before cacheBase workBase)
    (apt : Apt project before cacheBase workBase source) (digest : Digest.IsDigest hash)
    (member : path ∈ (project.location source hash).artifacts) (ways : before.KeepsWays after)
    (same : ∀ place ∈ project.artifactPlaces cacheBase workBase source hash,
      after.node? place = before.node? place)
    (file : before.isFile path = true) : after.isFile path = true := by
  obtain ⟨named, place, leads, node, stands, isFile⟩ := Disk.isFile_iff.mp file
  obtain ⟨found, noLink⟩ := place_of_walks sites apt.clear apt.descends digest member leads
  have kept : after.node? place = some node := (same place found).trans stands
  refine Disk.isFile_iff.mpr ⟨named, place, leads.of_keepsWays ways ⟨node, kept, ?_⟩, node, kept, isFile⟩
  rintro target rfl
  exact noLink target stands

theorem isFile_removeArtifact (sites : Sites project disk cacheBase workBase)
    (apt : Apt project disk cacheBase workBase source) (digest : Digest.IsDigest hash)
    (member : path ∈ (project.location source hash).artifacts)
    (alsoApt : Apt project disk cacheBase workBase other) (alsoDigest : Digest.IsDigest hash')
    {removed : Path} (alsoMember : removed ∈ (project.location other hash').artifacts)
    (different : ¬ (source = other ∧ hash = hash')) (file : disk.isFile path = true) :
    (Run.removeArtifact disk removed).isFile path = true := by
  obtain same | ⟨place, found, isFile, same⟩ := removeArtifact_eq sites alsoApt alsoDigest alsoMember
  · rwa [same]
  · rw [same]
    refine isFile_of_places sites apt digest member (Disk.keepsWays_erase isFile) (fun spot inside => ?_) file
    refine Disk.node?_erase_of_ne fun equal => different ?_
    subst equal
    obtain ⟨sources, hashes⟩ :=
      eq_of_mem_artifactPlaces apt.descends alsoApt.descends digest alsoDigest inside found
    exact ⟨apt.canonical.symm.trans (sources.trans alsoApt.canonical), hashes⟩

end Project

end TypedLiterals
