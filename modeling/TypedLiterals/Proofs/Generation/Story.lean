import TypedLiterals.Proofs.Generation.Stale

/-!
Stale artifacts over many runs.

Both artifacts of a literal are gone once its fingerprint was stale, as long as no change of the configuration
moves the modules that earlier runs have made; declarations may be moved.
-/

namespace TypedLiterals

open Disk (Place placeOf)

variable {project other : Project} {engine : Engine} {seed : String} {options : Run.Options}
  {sources : List String} {workspace after : Workspace} {report : Report} {hash : String} {disk : Disk}
  {made : List Record} {old : Record} {path : Path}

/-- What may come of runs without failures that share a cache: a project, a disk and the records of all
literals that the runs have generated. Between two runs files may change, and so may the configuration, as
long as it does not move the modules that were generated. -/
inductive Story : Project → Disk → List Record → Prop
  | start {project : Project} {disk : Disk} : Story project disk []
  | edit {project : Project} {before after : Disk} {made : List Record} (earlier : Story project before made)
      (cache : ∀ source, Cache.partition (Cache.load after project) source =
        Cache.partition (Cache.load before project) source)
      (removed : ∀ old ∈ made, ∀ artifact ∈ old.location.artifacts,
        before.Fileless (placeOf artifact) → after.Fileless (placeOf artifact)) : Story project after made
  | configure {project other : Project} {disk : Disk} {made : List Record} (earlier : Story project disk made)
      (workingDir : other.workingDir = project.workingDir) (cacheDir : other.cacheDir = project.cacheDir)
      (modules : ∀ old ∈ made,
        placeOf (other.location old.source old.hash).module = placeOf old.location.module) :
      Story other disk made
  | run {project : Project} {engine : Engine} {seed : String} {options : Run.Options} {sources : List String}
      {workspace after : Workspace} {report : Report} {made : List Record}
      (earlier : Story project workspace.disk made)
      (confined : Generation.Confined engine) (real : options.dryRun = false)
      (tidy : Run.Tidy project seed options sources workspace.disk made)
      (ran : run project engine seed options sources workspace = (.ok report, after))
      (succeeded : report.failures = []) : Story project after.disk (made ++ report.made)

theorem Story.accounted (story : Story project disk made)
    (member : old ∈ made) : Run.Accounted project disk old := by
  induction story with
  | start => contradiction
  | edit _ cache removed ih =>
      obtain ⟨module, declared, generated⟩ := ih member
      rw [← cache] at declared generated
      exact ⟨module, declared.imp_right (removed _ member _ (Location.mem_artifacts.mpr (.inr rfl))),
        generated.imp_right (removed _ member _ (Location.mem_artifacts.mpr (.inl rfl)))⟩
  | @configure project other disk made _ workingDir cacheDir modules ih =>
      obtain ⟨_, declared, generated⟩ := ih member
      rw [← Cache.load_congr cacheDir] at declared generated
      rw [← workingDir] at declared
      refine ⟨modules _ member, declared, generated⟩
  | @run project engine seed options sources workspace after report made _ confined real tidy ran succeeded ih =>
      by_cases present : sources = []
      · subst present
        cases ran
        rcases List.mem_append.mp member with before | new
        · exact ih before
        · contradiction
      · rcases List.mem_append.mp member with before | new
        · exact tidy.accounted confined present real ran succeeded before (ih before)
        · exact tidy.accounted_made confined present real ran succeeded new

/-- Both artifacts of a literal are gone when a run without failures has reported its fingerprint as stale, and
the cache has no entry for it, as long as no change of the configuration has moved the modules. -/
theorem stale_artifacts_gone (story : Story project workspace.disk made)
    (confined : Generation.Confined engine) (real : options.dryRun = false)
    (tidy : Run.Tidy project seed options sources workspace.disk made)
    (ran : run project engine seed options sources workspace = (.ok report, after))
    (succeeded : report.failures = []) {outcome : ProcessedSource} (processed : outcome ∈ report.processed)
    (stale : hash ∈ outcome.stale) :
    (Cache.partition (Cache.load after.disk project) outcome.source).find? hash = none ∧
    ∀ old ∈ made, old.source = outcome.source → old.hash = hash →
      ∀ artifact ∈ old.location.artifacts, after.disk.Fileless (placeOf artifact) := by
  have present : sources ≠ [] := by
    rintro rfl
    cases ran
    contradiction
  obtain ⟨scanned, listed, _, planned⟩ := Run.planned_of_run present real ran processed
  rw [planned] at stale
  constructor
  · obtain ⟨changed, _⟩ := Run.partitions_of_run confined present real ran tidy.toPlaced succeeded
    obtain ⟨⟨known, found⟩, unused⟩ := Run.mem_stale.mp stale
    rw [changed _ listed, Run.find?_updated, Partition.entryAfter, found]
    exact if_neg unused
  · intro old member source same path artifact
    subst same
    rw [← source] at listed stale
    exact tidy.gone_of_stale confined present real ran succeeded member (story.accounted member) listed stale
      artifact

/-! ## A literal that is replaced -/

/-- Where the module of the small source is, and where its declaration. -/
def smallPlaces : List Place :=
  [["c", "t", "a.ts-" ++ movedArtifact.hash ++ ".tsx"], ["t", "a.ts-" ++ movedArtifact.hash ++ ".d.ts"]]

/-- What a run for the small source leaves, with another literal in the source. -/
def replacedDisk : Disk :=
  ⟨[(["a.ts"], .file "import{gql}from'graphql-let';gql(`b`)".toUTF8), (["c"], .directory),
    (["c", "literals.json"], .file (String.join ["\x7b\x22a.ts\x22:\x7b\x22", movedArtifact.hash, "\x22:[\x22t/a.ts-",
      movedArtifact.hash, ".d.ts\x22,\x22a\x22]\x7d\x7d"]).toUTF8), (["c", "t"], .directory), (["t"], .directory)] ++
    smallPlaces.map fun place => (place, .file "".toUTF8)⟩

/-- The small project with its declarations below another directory. -/
def declaredProject : Project :=
  { Run.smallProject with config := { Run.smallProject.config with entrypoint := ⟨"j/i"⟩ } }

/-- The small source has one literal, whose artifacts and entry are on the disk with the other literal. -/
theorem smallDisk_literals :
    (Run.filled Run.smallDisk Run.smallProject ["a.ts"]).map (fun pair =>
      (pair.1, pair.2.occurrences.map fun occurrence => fingerprint "" occurrence.literal)) =
        [("a.ts", [movedArtifact.hash])] ∧
    ((Run.smallProject.location "a.ts" movedArtifact.hash).artifacts.map placeOf = smallPlaces ∧
      ∀ path ∈ (Run.smallProject.location "a.ts" movedArtifact.hash).artifacts, replacedDisk.isFile path = true) ∧
    (Run.filled Run.smallDisk Run.smallProject ["a.ts"]).map (fun pair =>
      (pair.1, Run.updated Run.smallProject "" pair.1 pair.2 .empty)) =
        [("a.ts", Cache.partition (Cache.load replacedDisk Run.smallProject) "a.ts")] ∧
    (Cache.load replacedDisk Run.smallProject).keys = ["a.ts"] := by
  decide +kernel

theorem mem_filled_smallDisk {pair : String × SourceScan} {occurrence : Occurrence}
    (listed : pair ∈ Run.filled Run.smallDisk Run.smallProject ["a.ts"])
    (called : occurrence ∈ pair.2.occurrences) :
    pair.1 = "a.ts" ∧ fingerprint "" occurrence.literal = movedArtifact.hash := by
  have only := List.mem_map_of_mem (f := fun pair : String × SourceScan =>
    (pair.1, pair.2.occurrences.map fun occurrence => fingerprint "" occurrence.literal)) listed
  rw [smallDisk_literals.1, List.mem_singleton, Prod.mk.injEq] at only
  exact ⟨only.1, List.mem_singleton.mp (only.2 ▸ List.mem_map_of_mem called)⟩

theorem exists_smallLiteral : ∃ pair ∈ Run.filled Run.smallDisk Run.smallProject ["a.ts"],
    ∃ occurrence, occurrence ∈ pair.2.occurrences := by
  obtain ⟨pair, listed, same⟩ := List.map_eq_singleton_iff.mp smallDisk_literals.1
  obtain ⟨occurrence, called, _⟩ := List.map_eq_singleton_iff.mp (Prod.mk.inj same).2
  exact ⟨pair, by rw [listed]; exact List.mem_cons_self, occurrence, by rw [called]; exact List.mem_cons_self⟩

theorem tidy_smallDisk : Run.Tidy Run.smallProject "" repeatedOptions ["a.ts"] Run.smallDisk [] := by
  have idle : ∀ pair ∈ Run.filled Run.smallDisk Run.smallProject ["a.ts"],
      ∀ path, path ∉ Run.discarded Run.smallProject "" pair.1 pair.2
        (Cache.partition (Cache.load Run.smallDisk Run.smallProject) pair.1) := by
    intro pair _ path member
    obtain ⟨hash, stale, _⟩ := List.mem_flatMap.mp member
    obtain ⟨⟨known, found⟩, _⟩ := Run.mem_stale.mp stale
    rw [smallDisk_empty] at found
    cases found
  exact ⟨placed_smallDisk, fun pair listed path member => absurd member (idle pair listed path),
    fun pair listed path member => absurd member (idle pair listed path), nofun, nofun⟩

section

variable (ran : run Run.smallProject blankEngine "" repeatedOptions ["a.ts"] ⟨Run.smallDisk, []⟩ =
    (.ok report, after))
include ran

theorem mem_made_smallRun (member : old ∈ report.made) : old.source = "a.ts" ∧ old.hash = movedArtifact.hash ∧
    old.location = Run.smallProject.location "a.ts" movedArtifact.hash := by
  obtain ⟨outcome, processed, recorded⟩ := List.mem_flatMap.mp member
  obtain ⟨scanned, listed, planned, _⟩ := Run.planned_of_run (by decide) rfl ran processed
  rw [planned] at recorded
  obtain ⟨occurrence, called, rfl⟩ := List.mem_map.mp (List.mem_of_mem_filter recorded)
  obtain ⟨source, hash⟩ := mem_filled_smallDisk listed called
  rw [Run.record_location, Run.record_hash, hash]
  exact ⟨source, rfl, congrArg (Run.smallProject.location · _) source⟩

variable (succeeded : report.failures = [])
include succeeded

theorem exists_made_smallRun : ∃ old, old ∈ report.made := by
  obtain ⟨pair, listed, _⟩ := exists_smallLiteral
  obtain ⟨outcome, processed, same⟩ := List.mem_map.mp
    ((Run.processed_perm (by decide) rfl ran succeeded).mem_iff.mpr (List.mem_map_of_mem listed))
  obtain ⟨scanned, alsoListed, planned, _⟩ := Run.planned_of_run (by decide) rfl ran processed
  obtain ⟨occurrence, (called : occurrence ∈ scanned.occurrences)⟩ := Run.exists_occurrence alsoListed
  refine ⟨Plan.record Run.smallProject "" outcome.source
    (Cache.partition (Cache.load Run.smallDisk Run.smallProject) outcome.source) occurrence,
    List.mem_flatMap.mpr ⟨outcome, processed, List.mem_filter.mpr ⟨?_, ?_⟩⟩⟩
  · rw [planned]
    exact List.mem_map_of_mem called
  · rw [Run.record_skip, smallDisk_empty]
    rfl

theorem backed_smallRun : ∃ known,
    (Cache.partition (Cache.load after.disk Run.smallProject) "a.ts").find? movedArtifact.hash = some known ∧
    Backed Run.smallProject after.disk "a.ts" movedArtifact.hash known := by
  have chronicle : Chronicle Run.smallProject after.disk :=
    .run (.start smallDisk_empty) (ordinary_smallDisk ran succeeded) ran
  obtain ⟨changed, _⟩ := Run.partitions_of_run confined_blankEngine (by decide) rfl ran placed_smallDisk succeeded
  obtain ⟨pair, listed, occurrence, called⟩ := exists_smallLiteral
  obtain ⟨source, hash⟩ := mem_filled_smallDisk listed called
  have entries := changed pair listed
  obtain ⟨known, entry⟩ : ∃ known, Partition.entryAfter Run.smallProject "" pair.1 pair.2
      (Cache.partition (Cache.load Run.smallDisk Run.smallProject) pair.1) (fingerprint "" occurrence.literal) =
        some known := Partition.exists_entryAfter called
  rw [← Run.find?_updated, ← entries, source, hash] at entry
  exact ⟨known, entry, (chronicle.trustworthy "a.ts" movedArtifact.hash known entry).2.2.2⟩

end

/-- After a run the literal of the small source may be replaced. -/
theorem story_replacedDisk
    (ran : run Run.smallProject blankEngine "" repeatedOptions ["a.ts"] ⟨Run.smallDisk, []⟩ = (.ok report, after))
    (succeeded : report.failures = []) : Story Run.smallProject replacedDisk report.made := by
  have first : Story Run.smallProject after.disk ([] ++ report.made) :=
    .run .start confined_blankEngine rfl tidy_smallDisk ran succeeded
  refine .edit first (fun source => ?_) fun old member path artifact fileless => ?_
  · obtain ⟨changed, kept⟩ :=
      Run.partitions_of_run confined_blankEngine (by decide) rfl ran placed_smallDisk succeeded
    obtain ⟨_, _, entries, keys⟩ := smallDisk_literals
    obtain ⟨pair, listed, same⟩ := List.map_eq_singleton_iff.mp entries
    obtain ⟨named, entries⟩ := Prod.mk.inj same
    by_cases here : source = "a.ts"
    · rw [here, ← entries, ← named, changed pair (by rw [listed]; exact List.mem_cons_self), smallDisk_empty]
      rfl
    · have unknown : (Cache.load replacedDisk Run.smallProject).find? source = none := by
        rw [← Option.not_isSome_iff_eq_none, Option.isSome_iff_exists, ← Table.mem_keys, keys, List.mem_singleton]
        exact here
      rw [kept source (by rw [listed]; simp [named, here]), smallDisk_empty, Cache.partition, unknown]
      rfl
  · rw [(mem_made_smallRun ran member).2.2] at artifact
    obtain ⟨known, _, backed⟩ := backed_smallRun ran succeeded
    obtain ⟨_, place, leads, node, stands, content, rfl⟩ := Disk.isFile_iff.mp (backed.files path artifact)
    have direct := Run.direct_of_run confined_blankEngine (by decide) rfl ran placed_smallDisk (smallDisk_direct path)
    rw [direct.leads_eq leads] at stands
    exact absurd stands (fileless content)

/-- The fingerprint of the literal that replaces the one of the small source. -/
def replacedHash : String := "3e23e8160039594a33894f6564e1b1348bbd7a0088d42c4acb73eeaed59c009d"

theorem replacedDisk_literals :
    (Run.filled replacedDisk Run.smallProject ["a.ts"]).map (fun pair =>
      (pair.1, pair.2.hashesInUse "")) = [("a.ts", [replacedHash])] := by
  decide +kernel

theorem mem_filled_replacedDisk {pair : String × SourceScan}
    (listed : pair ∈ Run.filled replacedDisk Run.smallProject ["a.ts"]) :
    pair.1 = "a.ts" ∧ pair.2.hashesInUse "" = [replacedHash] := by
  have only := List.mem_map_of_mem (f := fun pair : String × SourceScan => (pair.1, pair.2.hashesInUse "")) listed
  rwa [replacedDisk_literals, List.mem_singleton, Prod.mk.injEq] at only

/-- The entry of the replaced literal is the only one. -/
theorem replacedDisk_entry {hash : String} {known : KnownLiteral}
    (found : (Cache.partition (Cache.load replacedDisk Run.smallProject) "a.ts").find? hash = some known) :
    hash = movedArtifact.hash ∧
      known.declaration = (Run.smallProject.location "a.ts" movedArtifact.hash).declarationRel := by
  obtain ⟨pair, listed, same⟩ := List.map_eq_singleton_iff.mp smallDisk_literals.2.2.1
  obtain ⟨named, entries⟩ := Prod.mk.inj same
  rw [← entries, Run.find?_updated] at found
  rcases Run.entryAfter_eq_some found with ⟨old, _⟩ | ⟨derived, _, occurrence, called, rfl⟩
  · cases old
  · have inside : pair ∈ Run.filled Run.smallDisk Run.smallProject ["a.ts"] := by
      rw [listed]
      exact List.mem_cons_self
    obtain ⟨source, hash⟩ := mem_filled_smallDisk inside called
    rw [source, hash] at derived
    exact ⟨hash, derived⟩

theorem replacedDisk_stale {pair : String × SourceScan}
    (listed : pair ∈ Run.filled replacedDisk Run.smallProject ["a.ts"]) :
    movedArtifact.hash ∈ (Plan.ofScan project "" pair.1 pair.2
      (Cache.partition (Cache.load replacedDisk Run.smallProject) pair.1)).stale := by
  obtain ⟨named, used⟩ := mem_filled_replacedDisk listed
  obtain ⟨small, member, occurrence, called⟩ := exists_smallLiteral
  obtain ⟨first, only, same⟩ := List.map_eq_singleton_iff.mp smallDisk_literals.2.2.1
  have entries := (Prod.mk.inj same).2
  obtain rfl : small = first := List.mem_singleton.mp (only ▸ member)
  obtain ⟨known, entry⟩ : ∃ known, Partition.entryAfter Run.smallProject "" small.1 small.2 .empty
      (fingerprint "" occurrence.literal) = some known := Partition.exists_entryAfter called
  rw [← Run.find?_updated, entries, (mem_filled_smallDisk member called).2, ← named] at entry
  exact Run.mem_stale.mpr ⟨⟨known, entry⟩, by rw [used]; decide⟩

theorem module_declaredProject (source hash : String) :
    (declaredProject.location source hash).module = (Run.smallProject.location source hash).module := by
  rw [Project.location, Project.location, Location.ofLiteral, Location.ofLiteral]
  rfl

theorem load_declaredProject :
    Cache.load replacedDisk declaredProject = Cache.load replacedDisk Run.smallProject :=
  Cache.load_congr rfl

theorem mem_discarded_replacedDisk {pair : String × SourceScan}
    (listed : pair ∈ Run.filled replacedDisk Run.smallProject ["a.ts"])
    (member : path ∈ Run.discarded declaredProject "" pair.1 pair.2
      (Cache.partition (Cache.load replacedDisk declaredProject) pair.1)) :
    path ∈ (Run.smallProject.location "a.ts" movedArtifact.hash).artifacts := by
  rw [load_declaredProject] at member
  obtain ⟨hash, stale, inside⟩ := List.mem_flatMap.mp member
  obtain ⟨⟨known, found⟩, _⟩ := Run.mem_stale.mp stale
  rw [Run.staleArtifacts, Run.find?_recordEntries_of_known found, Option.map_some, Option.toList_some] at inside
  rw [(mem_filled_replacedDisk listed).1] at found inside
  obtain ⟨rfl, derived⟩ := replacedDisk_entry found
  rw [derived, module_declaredProject] at inside
  refine Location.mem_artifacts.mpr ((List.mem_pair.mp inside).symm.imp id fun same => ?_)
  rw [same, Project.declaration_location]
  rfl

/-- Where the artifacts of the replacing literal go. -/
def replacedPlaces : List Place :=
  [["c", "t", "a.ts-" ++ replacedHash ++ ".tsx"], ["j", "t", "a.ts-" ++ replacedHash ++ ".d.ts"]]

/-- Where the cache document goes. -/
def documentPlaces : List Place := [["c", "literals.json"], ["c", "literals.json.tmp"]]

theorem declaredProject_places :
    (declaredProject.location "a.ts" replacedHash).artifacts.map placeOf = replacedPlaces ∧
    (Cache.path declaredProject :: Run.closingPaths declaredProject Run.smallOptions).map placeOf =
      documentPlaces ∧
    placeOf (Run.rewritePath declaredProject Run.smallOptions.destination "a.ts") = ["o", "a.ts"] ∧
    (∀ place ∈ smallPlaces, place ∉ replacedPlaces ++ documentPlaces ++ [["o", "a.ts"]]) ∧
    ["o", "a.ts"] ∉ replacedPlaces ++ documentPlaces := by
  decide +kernel

theorem replacedDisk_direct (path : Path) : replacedDisk.Direct path :=
  Disk.clear_of_noLink (Disk.noLink_of_entries (by decide)) [] (Disk.pathNames path.text)

theorem filled_declaredProject :
    Run.filled replacedDisk declaredProject ["a.ts"] = Run.filled replacedDisk Run.smallProject ["a.ts"] := rfl

theorem filled_movedProject :
    Run.filled replacedDisk movedProject ["a.ts"] = Run.filled replacedDisk Run.smallProject ["a.ts"] := rfl

theorem location_of_replaced {pair : String × SourceScan} {partition : Partition} {record : Record}
    (listed : pair ∈ Run.filled replacedDisk Run.smallProject ["a.ts"])
    (planned : record ∈ (Plan.ofScan declaredProject "" pair.1 pair.2 partition).records) :
    record.location = declaredProject.location "a.ts" replacedHash := by
  obtain ⟨occurrence, called, rfl⟩ := List.mem_map.mp planned
  obtain ⟨named, used⟩ := mem_filled_replacedDisk listed
  have hash : fingerprint "" occurrence.literal ∈ pair.2.hashesInUse "" :=
    List.mem_append_left _ (List.mem_map_of_mem called)
  rw [used, List.mem_singleton] at hash
  rw [Run.record_location, hash, named]

theorem placeOf_closing
    (member : path ∈ Cache.path declaredProject :: Run.closingPaths declaredProject Run.smallOptions) :
    placeOf path ∈ documentPlaces :=
  declaredProject_places.2.1 ▸ List.mem_map_of_mem member

theorem placeOf_generated {pair : String × SourceScan} {partition : Partition}
    (listed : pair ∈ Run.filled replacedDisk Run.smallProject ["a.ts"])
    (member : path ∈ Run.generatedPaths declaredProject "" pair.1 pair.2 partition) :
    placeOf path ∈ replacedPlaces := by
  obtain ⟨record, planned, inside⟩ := List.mem_flatMap.mp member
  rw [location_of_replaced listed (List.mem_of_mem_filter planned)] at inside
  exact declaredProject_places.1 ▸ List.mem_map_of_mem inside

theorem placeOf_rewritten {pair : String × SourceScan}
    (listed : pair ∈ Run.filled replacedDisk Run.smallProject ["a.ts"]) :
    placeOf (Run.rewritePath declaredProject Run.smallOptions.destination pair.1) = ["o", "a.ts"] := by
  rw [(mem_filled_replacedDisk listed).1]
  exact declaredProject_places.2.2.1

theorem placeOf_written (member : path ∈ Cache.path declaredProject ::
      Run.writtenPaths declaredProject "" Run.smallOptions ["a.ts"] replacedDisk) :
    placeOf path ∈ replacedPlaces ++ documentPlaces ++ [["o", "a.ts"]] := by
  rcases List.mem_append.mp (List.cons_append ▸ member) with closing | inside
  · exact List.mem_append_left _ (List.mem_append_right _ (placeOf_closing closing))
  · obtain ⟨pair, listed, inside⟩ := List.mem_flatMap.mp inside
    rcases List.mem_cons.mp inside with rfl | generated
    · rw [placeOf_rewritten listed]
      exact List.mem_append_right _ List.mem_cons_self
    · exact List.mem_append_left _ (List.mem_append_left _ (placeOf_generated listed generated))

theorem placeOf_discarded {pair : String × SourceScan}
    (listed : pair ∈ Run.filled replacedDisk Run.smallProject ["a.ts"])
    (member : path ∈ Run.discarded declaredProject "" pair.1 pair.2
      (Cache.partition (Cache.load replacedDisk declaredProject) pair.1)) : placeOf path ∈ smallPlaces :=
  smallDisk_literals.2.1.1 ▸ List.mem_map_of_mem (mem_discarded_replacedDisk listed member)

theorem tidy_replacedDisk
    (ran : run Run.smallProject blankEngine "" repeatedOptions ["a.ts"] ⟨Run.smallDisk, []⟩ = (.ok report, after)) :
    Run.Tidy declaredProject "" Run.smallOptions ["a.ts"] replacedDisk report.made := by
  obtain ⟨_, _, _, apart, apartNew⟩ := declaredProject_places
  have madePlace : ∀ old ∈ report.made, ∀ artifact ∈ old.location.artifacts, placeOf artifact ∈ smallPlaces := by
    intro old member artifact inside
    rw [(mem_made_smallRun ran member).2.2] at inside
    exact smallDisk_literals.2.1.1 ▸ List.mem_map_of_mem inside
  refine ⟨⟨fun pair listed => ⟨replacedDisk_direct _, fun path _ => replacedDisk_direct path, ?_⟩,
    fun path _ => replacedDisk_direct path, ?_, nofun⟩, ?_, ?_, ?_, ?_⟩
  · intro path member same
    obtain ⟨other, alsoListed, inside⟩ := List.mem_flatMap.mp member
    rw [placeOf_rewritten listed] at same
    rcases List.mem_append.mp inside with inside | discarded
    · rcases List.mem_append.mp inside with generated | rewritten
      · exact apartNew (List.mem_append_left _ (same ▸ placeOf_generated alsoListed generated))
      · rw [(mem_filled_replacedDisk alsoListed).1, (mem_filled_replacedDisk listed).1, if_pos rfl] at rewritten
        exact absurd rewritten List.not_mem_nil
    · exact apart _ (placeOf_discarded alsoListed discarded)
        (by rw [same]; exact List.mem_append_right _ List.mem_cons_self)
  · intro pair listed path closing same
    rw [placeOf_rewritten listed] at same
    exact apartNew (List.mem_append_right _ (same ▸ placeOf_closing closing))
  · intro pair listed path member content _
    exact smallDisk_literals.2.1.2 path (mem_discarded_replacedDisk listed member)
  · intro pair listed path member other written same
    exact apart _ (placeOf_discarded listed member) (same ▸ placeOf_written written)
  · intro old member artifact inside path written same
    refine apart _ (madePlace old member artifact inside) (same ▸ ?_)
    rcases List.mem_append.mp (written : path ∈ (_ :: _) ++ _) with closing | rewritten
    · exact List.mem_append_left _ (List.mem_append_right _ (placeOf_closing closing))
    · obtain ⟨pair, listed, rfl⟩ := List.mem_map.mp rewritten
      rw [placeOf_rewritten listed]
      exact List.mem_append_right _ List.mem_cons_self
  · intro old member pair listed record planned fresh
    have other : ∀ path ∈ record.location.artifacts, ∀ artifact ∈ old.location.artifacts,
        placeOf path ≠ placeOf artifact := by
      intro path inside artifact made same
      have generated := placeOf_generated listed (List.mem_flatMap.mpr
        ⟨record, List.mem_filter.mpr ⟨planned, by rw [fresh]; rfl⟩, inside⟩)
      exact apart _ (madePlace old member artifact made)
        (same ▸ List.mem_append_left _ (List.mem_append_left _ generated))
    have module : ∀ {location : Location}, location.module ∈ location.artifacts :=
      Location.mem_artifacts.mpr (.inl rfl)
    have declaration : ∀ {location : Location}, location.declaration ∈ location.artifacts :=
      Location.mem_artifacts.mpr (.inr rfl)
    refine ⟨⟨other _ module _ declaration, other _ declaration _ module⟩, fun same => ?_⟩
    rcases same with same | same
    · exact absurd same (other _ module _ module)
    · exact absurd same (other _ declaration _ declaration)

theorem replacedRun_outcome :
    let moved := run movedProject blankEngine "" Run.smallOptions ["a.ts"] ⟨replacedDisk, []⟩
    (run declaredProject blankEngine "" Run.smallOptions ["a.ts"] ⟨replacedDisk, []⟩).1.toOption.map (·.failures) =
        some [] ∧
      moved.1.toOption.map (·.failures) = some [] ∧
      moved.2.disk.isFile (Run.smallProject.location "a.ts" movedArtifact.hash).module = true := by
  refine ⟨?_, ?_⟩
  all_goals decide +kernel

/-- What a run on the changed disk reports of the source. -/
theorem exists_stale_replacedRun
    (filled : Run.filled replacedDisk other ["a.ts"] = Run.filled replacedDisk Run.smallProject ["a.ts"])
    (loaded : Cache.load replacedDisk other = Cache.load replacedDisk Run.smallProject)
    (ran : run other blankEngine "" Run.smallOptions ["a.ts"] ⟨replacedDisk, []⟩ = (.ok report, after))
    (succeeded : report.failures = []) :
    ∃ outcome ∈ report.processed, outcome.source = "a.ts" ∧ movedArtifact.hash ∈ outcome.stale := by
  obtain ⟨pair, listed, _⟩ := List.map_eq_singleton_iff.mp replacedDisk_literals
  have member : pair ∈ Run.filled replacedDisk other ["a.ts"] := by
    rw [filled, listed]
    exact List.mem_cons_self
  obtain ⟨outcome, processed, _⟩ := List.mem_map.mp
    ((Run.processed_perm (by decide) rfl ran succeeded).mem_iff.mpr (List.mem_map_of_mem member))
  obtain ⟨scanned, alsoListed, _, stale⟩ := Run.planned_of_run (by decide) rfl ran processed
  rw [filled] at alsoListed
  have expected := @replacedDisk_stale other _ alsoListed
  rw [← loaded, ← stale] at expected
  exact ⟨outcome, processed, (mem_filled_replacedDisk alsoListed).1, expected⟩

theorem stale_artifacts_gone_replaced :
    ∃ first middle second after,
      run Run.smallProject blankEngine "" repeatedOptions ["a.ts"] ⟨Run.smallDisk, []⟩ = (.ok first, middle) ∧
      first.made ≠ [] ∧ Story declaredProject replacedDisk first.made ∧
      run declaredProject blankEngine "" Run.smallOptions ["a.ts"] ⟨replacedDisk, []⟩ = (.ok second, after) ∧
      ∃ outcome ∈ second.processed, movedArtifact.hash ∈ outcome.stale ∧
        (Cache.partition (Cache.load after.disk declaredProject) outcome.source).find? movedArtifact.hash = none ∧
        ∀ old ∈ first.made, ∀ artifact ∈ old.location.artifacts, after.disk.Fileless (placeOf artifact) := by
  obtain ⟨first, middle, ran, succeeded⟩ := exists_of_outcome repeatedRun_outcome.1
  obtain ⟨second, after, again, alsoSucceeded⟩ := exists_of_outcome replacedRun_outcome.1
  have story : Story declaredProject replacedDisk first.made := by
    refine .configure (story_replacedDisk ran succeeded) rfl rfl fun old member => ?_
    obtain ⟨source, hash, location⟩ := mem_made_smallRun ran member
    rw [source, hash, location, module_declaredProject]
  obtain ⟨outcome, processed, source, stale⟩ :=
    exists_stale_replacedRun filled_declaredProject load_declaredProject again alsoSucceeded
  obtain ⟨gone, filesGone⟩ := stale_artifacts_gone story confined_blankEngine rfl
    (tidy_replacedDisk ran) again alsoSucceeded processed stale
  obtain ⟨old, made⟩ := exists_made_smallRun ran succeeded
  refine ⟨first, middle, second, after, ran, List.ne_nil_of_mem made, story, again, outcome, processed, stale,
    gone, fun old member => ?_⟩
  obtain ⟨same, hash, _⟩ := mem_made_smallRun ran member
  exact filesGone old member (same.trans source.symm) hash

/-- When the modules are to be elsewhere, one that an earlier run has generated is left on the disk, although its
fingerprint is reported as stale. -/
theorem stale_module_stays :
    Run.smallProject.config.validate = .ok () ∧ movedProject.config.validate = .ok () ∧
    movedProject.cacheDir = Run.smallProject.cacheDir ∧
    ∃ first middle second after,
      run Run.smallProject blankEngine "" repeatedOptions ["a.ts"] ⟨Run.smallDisk, []⟩ = (.ok first, middle) ∧
      first.failures = [] ∧ Story Run.smallProject replacedDisk first.made ∧
      run movedProject blankEngine "" Run.smallOptions ["a.ts"] ⟨replacedDisk, []⟩ = (.ok second, after) ∧
      second.failures = [] ∧
      ∃ outcome ∈ second.processed, ∃ old ∈ first.made, old.source = outcome.source ∧ old.hash ∈ outcome.stale ∧
        after.disk.isFile old.location.module = true := by
  refine ⟨rfl, rfl, rfl, ?_⟩
  obtain ⟨first, middle, ran, succeeded⟩ := exists_of_outcome repeatedRun_outcome.1
  obtain ⟨_, failures, stays⟩ := replacedRun_outcome
  obtain ⟨second, after, again, alsoSucceeded⟩ := exists_of_outcome failures
  rw [again] at stays
  obtain ⟨outcome, processed, source, stale⟩ :=
    exists_stale_replacedRun filled_movedProject (Cache.load_congr rfl) again alsoSucceeded
  obtain ⟨old, made⟩ := exists_made_smallRun ran succeeded
  obtain ⟨same, hash, location⟩ := mem_made_smallRun ran made
  exact ⟨first, middle, second, after, ran, succeeded, story_replacedDisk ran succeeded, again, alsoSucceeded,
    outcome, processed, old, made, same.trans source.symm, hash ▸ stale, location ▸ stays⟩

end TypedLiterals
