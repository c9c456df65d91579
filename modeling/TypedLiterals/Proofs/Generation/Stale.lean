import TypedLiterals.Proofs.Generation.Reference
import TypedLiterals.Proofs.Generation.Stop

/-!
What a run leaves of stale artifacts.

A declaration is removed where the cache has recorded it, and a typed module where the present configuration
would put it. A run without failures leaves no file at either place, and none of any literal of earlier runs but
where the cache says so.
-/

namespace TypedLiterals

open Disk (Place placeOf)

variable {project other : Project} {engine : Engine} {seed : String} {options : Run.Options}
  {sources : List String} {workspace after : Workspace} {progress : Run.Progress} {report : Report}
  {source hash : String} {scanned : SourceScan} {partition : Partition} {path : Path}
  {base disk written : Disk} {place : Place}

theorem Location.mem_artifacts {location : Location} :
    path ∈ location.artifacts ↔ path = location.module ∨ path = location.declaration := List.mem_pair

/-- The records of the literals that a run has generated for the sources that it processed. -/
def Report.made (report : Report) : List Record :=
  report.processed.flatMap fun outcome => outcome.records.filter (!·.skip)

variable {made : List Record} {old : Record}

namespace Run

/-! ## One run -/

/-- Whether no link was made since a disk, and a file at the place of a path is found there. -/
def Findable (base : Disk) (path : Path) (disk : Disk) : Prop :=
  (∀ other target, disk.node? other = some (.link target) → base.node? other = some (.link target)) ∧
    ∀ content, disk.node? (placeOf path) = some (.file content) →
      Disk.Named path ∧ disk.Leads path (placeOf path)

theorem findable_stable (base : Disk) (path : Path) : Stable base (placeOf path) (Findable base path) where
  links := fun _ findable => findable.1
  spares := by
    rintro before after ⟨links, found⟩ spares
    refine ⟨fun other target link => links other target (spares.links other target link), fun content stands => ?_⟩
    rcases spares.held _ rfl with same | ⟨_, made⟩
    · obtain ⟨named, leads⟩ := found content (same ▸ stands)
      exact ⟨named, leads.of_keepsWays spares.ways ⟨_, stands, nofun⟩⟩
    · rw [made] at stands
      cases stands
  removes := by
    rintro disk removed direct ⟨links, found⟩
    have directNow : disk.Direct removed := direct.of_links links
    rcases removeArtifact_cases disk removed with same | ⟨gone, _, walks, other, same⟩
    · rw [same]
      exact ⟨links, found⟩
    · have here : gone = placeOf removed := directNow.place_eq walks
      have file : ∀ node, disk.node? gone = some node → node.IsFile := by
        intro node stands
        cases node with
        | file content => exact ⟨content, rfl⟩
        | directory => exact absurd stands other
        | link target => exact absurd (here ▸ stands) (directNow.not_link target)
      rw [same]
      refine ⟨fun place target link => links place target (Disk.links_erase link), fun content stands => ?_⟩
      have before : disk.node? (placeOf path) = some (.file content) := by
        rw [Disk.node?_erase] at stands
        split at stands
        · cases stands
        · split at stands
          · cases stands
          · exact stands
      obtain ⟨named, leads⟩ := found content before
      exact ⟨named, leads.of_keepsWays (Disk.keepsWays_erase file) ⟨_, stands, nofun⟩⟩

/-- A file that is found is gone once it was among the artifacts removed. -/
theorem Findable.gone {paths : List Path} (findable : Findable base path disk) (member : path ∈ paths)
    (direct : ∀ path ∈ paths, base.Direct path) : Gone base (placeOf path) (paths.foldl removeArtifact disk) := by
  induction paths generalizing disk with
  | nil => contradiction
  | cons first rest ih =>
      have later := (findable_stable base path).removes disk first (direct first List.mem_cons_self) findable
      by_cases here : path = first
      · subst here
        have fileless : (removeArtifact disk path).Fileless (placeOf path) := by
          by_cases file : ∃ content, disk.node? (placeOf path) = some (.file content)
          · obtain ⟨content, stands⟩ := file
            obtain ⟨named, leads⟩ := findable.2 content stands
            exact removeArtifact_fileless named ((direct path List.mem_cons_self).of_links findable.1) fun _ _ => leads
          · exact fileless_removeArtifact fun content stands => file ⟨content, stands⟩
        have gone : Gone base (placeOf path) (removeArtifact disk path) := ⟨later.1, fileless⟩
        exact List.foldlRecOn rest removeArtifact gone fun _ gone removed _ => gone.removeArtifact removed
      · exact ih later ((List.mem_cons.mp member).resolve_left here) fun other inside =>
          direct other (List.mem_cons_of_mem _ inside)

/-- Whether the artifacts of two records are at different places, unless both belong to one literal. -/
structure Distinct (record old : Record) : Prop where
  crossed : placeOf record.location.module ≠ placeOf old.location.declaration ∧
    placeOf record.location.declaration ≠ placeOf old.location.module
  own : placeOf record.location.module = placeOf old.location.module ∨
      placeOf record.location.declaration = placeOf old.location.declaration →
    record.source = old.source ∧ record.hash = old.hash

/-- Whether the outputs of a run are out of the way of the artifacts that it removes and of those that earlier
runs have made, and what stands where it removes is found there. -/
structure Tidy (project : Project) (seed : String) (options : Run.Options) (sources : List String) (disk : Disk)
    (made : List Record) : Prop extends Placed project seed options sources disk where
  found : ∀ pair ∈ filled disk project sources,
    ∀ path ∈ discarded project seed pair.1 pair.2 (Cache.partition (Cache.load disk project) pair.1),
      ∀ content, disk.node? (placeOf path) = some (.file content) → disk.isFile path = true
  removed : ∀ pair ∈ filled disk project sources,
    ∀ path ∈ discarded project seed pair.1 pair.2 (Cache.partition (Cache.load disk project) pair.1),
      ∀ other ∈ Cache.path project :: writtenPaths project seed options sources disk,
        placeOf other ≠ placeOf path
  apart : ∀ old ∈ made, ∀ artifact ∈ old.location.artifacts,
    ∀ path ∈ Cache.path project :: closingPaths project options ++
        (filled disk project sources).map fun pair => rewritePath project options.destination pair.1,
      placeOf path ≠ placeOf artifact
  distinct : ∀ old ∈ made, ∀ pair ∈ filled disk project sources,
    ∀ record ∈ (Plan.ofScan project seed pair.1 pair.2
        (Cache.partition (Cache.load disk project) pair.1)).records,
      record.skip = false → Distinct record old

section

variable (tidy : Tidy project seed options sources workspace.disk made)
  (confined : Generation.Confined engine) (present : sources ≠ []) (real : options.dryRun = false)
  (ran : run project engine seed options sources workspace = (.ok report, after))
include tidy

omit present real ran in
theorem Tidy.direct_written (member : path ∈ writtenPaths project seed options sources workspace.disk) :
    (ensureDirectories project workspace.disk).2.Direct path := by
  have links := (ensureDirectories_grows project workspace.disk).keeps.links
  rcases List.mem_append.mp member with closing | inside
  · exact (tidy.direct path (List.mem_cons_of_mem _ closing)).of_links links
  · obtain ⟨pair, listed, inside⟩ := List.mem_flatMap.mp inside
    rcases List.mem_cons.mp inside with rfl | generated
    · exact (tidy.lasting pair listed).own.of_links links
    · exact ((tidy.lasting pair listed).direct path (mem_otherPaths_of_generated listed generated)).of_links links

theorem Tidy.direct_removed {pair : String × SourceScan} (listed : pair ∈ filled workspace.disk project sources)
    (member : path ∈ discarded project seed pair.1 pair.2
      (Cache.partition (Cache.load workspace.disk project) pair.1)) :
    (ensureDirectories project workspace.disk).2.Direct path :=
  ((tidy.lasting pair listed).direct path (mem_otherPaths_of_discarded listed member)).of_links
    (ensureDirectories_grows project workspace.disk).keeps.links

include confined present real ran

/-- What holds at a place that a run does not write still holds when it is done. -/
theorem Tidy.holds {Holds : Disk → Prop}
    (stable : Stable (ensureDirectories project workspace.disk).2 place Holds)
    (apart : ∀ path ∈ Cache.path project :: writtenPaths project seed options sources workspace.disk,
      placeOf path ≠ place)
    {front back : List (String × SourceScan)} (split : filled workspace.disk project sources = front ++ back)
    (holds : Holds (steps project engine seed options (start project sources workspace) front).workspace.disk) :
    Holds after.disk := by
  obtain ⟨_, spares, _⟩ := ended_of_run confined present real ran tidy.toPlaced
  have all := Stable.last confined
    (fun path member => ⟨tidy.direct_written member, apart path (List.mem_cons_of_mem _ member)⟩)
    (fun pair listed path member => tidy.direct_removed listed member) holds stable split
  refine stable.spares _ _ all (spares.mono ?_)
  rintro _ rfl path member
  refine (apart path ?_).symm
  rcases List.mem_cons.mp member with rfl | closing
  · exact List.mem_cons_self
  · exact List.mem_cons_of_mem _ (List.mem_append_left _ closing)

theorem Tidy.fileless (fileless : workspace.disk.Fileless place)
    (apart : ∀ path ∈ Cache.path project :: writtenPaths project seed options sources workspace.disk,
      placeOf path ≠ place) : after.disk.Fileless place := by
  have grows := ensureDirectories_grows project workspace.disk
  have gone : Gone (ensureDirectories project workspace.disk).2 place
      (steps project engine seed options (start project sources workspace) []).workspace.disk := by
    have spares : Disk.Spares (· = place) workspace.disk (ensureDirectories project workspace.disk).2 := grows.spares
    rw [steps, start_disk]
    exact ⟨fun _ _ link => link, spares.fileless rfl fileless⟩
  exact (tidy.holds confined present real ran (gone_stable _ _) apart (List.nil_append _).symm gone).2

variable (succeeded : report.failures = [])
include succeeded

/-- No file is left where a run has removed stale artifacts. -/
theorem Tidy.fileless_removed {pair : String × SourceScan} (listed : pair ∈ filled workspace.disk project sources)
    (member : path ∈ discarded project seed pair.1 pair.2
      (Cache.partition (Cache.load workspace.disk project) pair.1)) :
    after.disk.Fileless (placeOf path) := by
  have grows := ensureDirectories_grows project workspace.disk
  have apart := tidy.removed pair listed path member
  have direct := tidy.direct_removed listed member
  have found := tidy.found pair listed path member
  obtain ⟨_, front, back, split, ⟨count, generated⟩, written, wrote⟩ :=
    rewrites_of_success present real ran succeeded listed
  have outputs : ∀ other ∈ writtenPaths project seed options sources workspace.disk,
      (ensureDirectories project workspace.disk).2.Direct other ∧ placeOf other ≠ placeOf path :=
    fun other inside => ⟨tidy.direct_written inside, apart other (List.mem_cons_of_mem _ inside)⟩
  have removals : ∀ pair ∈ filled workspace.disk project sources, ∀ path ∈ discarded project seed pair.1 pair.2
      (Cache.partition (Cache.load workspace.disk project) pair.1),
      (ensureDirectories project workspace.disk).2.Direct path :=
    fun pair listed path member => tidy.direct_removed listed member
  have base : Findable (ensureDirectories project workspace.disk).2 path
      (steps project engine seed options (start project sources workspace) []).workspace.disk := by
    rw [steps, start_disk]
    refine (findable_stable _ _).spares workspace.disk _
      ⟨fun _ _ link => grows.kept link, fun content stands => ?_⟩ grows.spares
    obtain ⟨named, place, leads, _⟩ := Disk.isFile_iff.mp (found content stands)
    have own := (tidy.lasting pair listed).direct path (mem_otherPaths_of_discarded listed member)
    rw [own.leads_eq leads] at leads
    exact ⟨named, leads⟩
  -- Up to the step of the source a file at the place of the artifact is found there.
  have findable := Stable.steps confined outputs removals base (findable_stable _ _) split
  have same := steps_start_partition engine seed options split
  have generation : Findable (ensureDirectories project workspace.disk).2 path (stepGeneration project engine seed
      options (steps project engine seed options (start project sources workspace) front) pair.1 pair.2).2.disk := by
    refine stepGeneration_preserves
      (fun _ _ grown holds => (findable_stable _ _).spares _ _ holds grown.spares)
      ((findable_stable _ _).answers confined ?_) findable
    rw [same]
    exact fun other inside => outputs other (generatedPaths_subset_writtenPaths listed inside)
  have freed := generation.gone member (removals pair listed)
  have stepped : Gone (ensureDirectories project workspace.disk).2 (placeOf path)
      (steps project engine seed options (start project sources workspace) (front ++ [pair])).workspace.disk := by
    rw [steps_append, steps, steps]
    refine Gone.step generated (outputs _ (rewritePath_mem_writtenPaths listed)) ?_
    rw [same]
    exact freed
  exact (tidy.holds confined present real ran (gone_stable _ _) apart
    (split.trans (List.append_cons front pair back)) stepped).2

end

/-! ## The literals of earlier runs -/

/-- Whether a run generates a literal. -/
def Renews (project : Project) (seed : String) (sources : List String) (disk : Disk) (source hash : String) :
    Prop :=
  ∃ pair ∈ filled disk project sources, ∃ record ∈ (Plan.ofScan project seed pair.1 pair.2
      (Cache.partition (Cache.load disk project) pair.1)).records,
    record.skip = false ∧ record.source = source ∧ record.hash = hash

theorem Renews.exists_occurrence (renews : Renews project seed sources disk source hash) :
    ∃ scanned, (source, scanned) ∈ filled disk project sources ∧
      (∃ occurrence ∈ scanned.occurrences, fingerprint seed occurrence.literal = hash) ∧
      (Cache.partition (Cache.load disk project) source).find? hash = none := by
  obtain ⟨⟨_, scanned⟩, listed, record, planned, fresh, rfl, rfl⟩ := renews
  obtain ⟨occurrence, called, rfl⟩ := List.mem_map.mp planned
  refine ⟨scanned, listed, ⟨occurrence, called, rfl⟩, ?_⟩
  rw [record_skip, ← Bool.not_eq_true, Table.contains_eq_true] at fresh
  exact Option.eq_none_iff_forall_ne_some.mpr fun known found => fresh ⟨known, found⟩

/-- What is left of a literal that an earlier run has generated: its module is where the configuration would
put it, and an artifact that is still there belongs to the entry of the literal. -/
structure Accounted (project : Project) (disk : Disk) (old : Record) : Prop where
  module : placeOf (project.location old.source old.hash).module = placeOf old.location.module
  declared : (∃ known, (Cache.partition (Cache.load disk project) old.source).find? old.hash = some known ∧
      placeOf (project.workingDir.joinSlashed known.declaration) = placeOf old.location.declaration) ∨
    disk.Fileless (placeOf old.location.declaration)
  generated : (∃ known, (Cache.partition (Cache.load disk project) old.source).find? old.hash = some known) ∨
    disk.Fileless (placeOf old.location.module)

theorem location_of_planned {record : Record}
    (planned : record ∈ (Plan.ofScan project seed source scanned partition).records) :
    record.location = project.location record.source record.hash := by
  obtain ⟨occurrence, _, rfl⟩ := List.mem_map.mp planned
  rw [record_location, record_hash]
  rfl

section

variable (tidy : Tidy project seed options sources workspace.disk made)
  (confined : Generation.Confined engine) (present : sources ≠ []) (real : options.dryRun = false)
  (ran : run project engine seed options sources workspace = (.ok report, after))
include tidy confined present real ran

/-- Where no file of an earlier literal was, there is none after a run that generates the literal elsewhere or
not at all. -/
theorem Tidy.fileless_of_elsewhere (member : old ∈ made) (artifact : path ∈ old.location.artifacts)
    (elsewhere : Renews project seed sources workspace.disk old.source old.hash →
      ∀ other ∈ (project.location old.source old.hash).artifacts, placeOf other ≠ placeOf path)
    (fileless : workspace.disk.Fileless (placeOf path)) : after.disk.Fileless (placeOf path) := by
  refine tidy.fileless confined present real ran fileless fun other written same => ?_
  have apart := tidy.apart old member path artifact other
  rcases List.mem_cons.mp written with rfl | written
  · exact apart List.mem_cons_self same
  rcases List.mem_append.mp written with closing | inside
  · exact apart (List.mem_cons_of_mem _ (List.mem_append_left _ closing)) same
  obtain ⟨pair, listed, inside⟩ := List.mem_flatMap.mp inside
  rcases List.mem_cons.mp inside with rfl | generated
  · exact apart (List.mem_cons_of_mem _ (List.mem_append_right _ (List.mem_map.mpr ⟨pair, listed, rfl⟩))) same
  obtain ⟨record, kept, made⟩ := List.mem_flatMap.mp generated
  obtain ⟨planned, fresh⟩ := List.mem_filter.mp kept
  rw [Bool.not_eq_true'] at fresh
  have distinct := tidy.distinct old member pair listed record planned fresh
  obtain ⟨source, hash⟩ : record.source = old.source ∧ record.hash = old.hash := by
    rcases Location.mem_artifacts.mp made with rfl | rfl <;> rcases Location.mem_artifacts.mp artifact with rfl | rfl
    · exact distinct.own (.inl same)
    · exact absurd same distinct.crossed.1
    · exact absurd same distinct.crossed.2
    · exact distinct.own (.inr same)
  refine elsewhere ⟨pair, listed, record, planned, fresh, source, hash⟩ other ?_ same
  rw [← source, ← hash, ← location_of_planned planned]
  exact made

variable (succeeded : report.failures = [])
include succeeded

/-- The entry of a literal is kept, or is stale, or there was none. -/
theorem Tidy.find?_cases {known : KnownLiteral}
    (found : (Cache.partition (Cache.load workspace.disk project) source).find? hash = some known) :
    (Cache.partition (Cache.load after.disk project) source).find? hash = some known ∨
    ∃ scanned, (source, scanned) ∈ filled workspace.disk project sources ∧
      hash ∈ (Plan.ofScan project seed source scanned
        (Cache.partition (Cache.load workspace.disk project) source)).stale := by
  obtain ⟨changed, kept⟩ := partitions_of_run confined present real ran tidy.toPlaced succeeded
  by_cases listed : source ∈ (filled workspace.disk project sources).map (·.1)
  · obtain ⟨⟨_, scanned⟩, inside, rfl⟩ := List.mem_map.mp listed
    by_cases used : hash ∈ scanned.hashesInUse seed
    · left
      rw [changed _ inside, find?_updated, Partition.entryAfter, found]
      exact if_pos used
    · exact .inr ⟨scanned, inside, mem_stale.mpr ⟨⟨known, found⟩, used⟩⟩
  · left
    rwa [kept source listed]

/-- Both artifacts of a literal are gone after a run for which it was stale. -/
theorem Tidy.gone_of_stale (member : old ∈ made) (accounted : Accounted project workspace.disk old)
    (listed : (old.source, scanned) ∈ filled workspace.disk project sources)
    (stale : old.hash ∈ (Plan.ofScan project seed old.source scanned
      (Cache.partition (Cache.load workspace.disk project) old.source)).stale)
    (artifact : path ∈ old.location.artifacts) : after.disk.Fileless (placeOf path) := by
  obtain ⟨known, found⟩ := (mem_stale.mp stale).1
  have idle : ¬ Renews project seed sources workspace.disk old.source old.hash := by
    intro renews
    obtain ⟨_, _, _, unknown⟩ := renews.exists_occurrence
    rw [found] at unknown
    cases unknown
  have discard : ∀ removed ∈ staleArtifacts project old.source (recordEntries
      (Cache.partition (Cache.load workspace.disk project) old.source)
      (Plan.ofScan project seed old.source scanned
        (Cache.partition (Cache.load workspace.disk project) old.source)).records) old.hash,
      after.disk.Fileless (placeOf removed) := fun removed inside =>
    tidy.fileless_removed confined present real ran succeeded listed
      (List.mem_flatMap.mpr ⟨old.hash, stale, inside⟩)
  rw [staleArtifacts, find?_recordEntries_of_known found, Option.map_some, Option.toList_some] at discard
  rcases Location.mem_artifacts.mp artifact with rfl | rfl
  · rw [← accounted.module]
    exact discard _ (by simp)
  · rcases accounted.declared with ⟨other, also, same⟩ | fileless
    · obtain rfl : known = other := Option.some.inj (found.symm.trans also)
      rw [← same]
      exact discard _ (by simp)
    · exact tidy.fileless_of_elsewhere confined present real ran member artifact (absurd · idle) fileless

theorem Tidy.find?_of_renewed (renews : Renews project seed sources workspace.disk source hash) :
    ∃ known, (Cache.partition (Cache.load after.disk project) source).find? hash = some known ∧
      project.workingDir.joinSlashed known.declaration = (project.location source hash).declaration := by
  obtain ⟨scanned, listed, ⟨occurrence, called, rfl⟩, unknown⟩ := renews.exists_occurrence
  obtain ⟨changed, _⟩ := partitions_of_run confined present real ran tidy.toPlaced succeeded
  obtain ⟨known, entry⟩ : ∃ known, Partition.entryAfter project seed source scanned
      (Cache.partition (Cache.load workspace.disk project) source) (fingerprint seed occurrence.literal) =
        some known := Partition.exists_entryAfter called
  refine ⟨known, by rw [changed _ listed, find?_updated, entry], ?_⟩
  rcases entryAfter_eq_some entry with ⟨found, _⟩ | ⟨derived, _⟩
  · rw [unknown] at found
    cases found
  · rw [derived, Project.declaration_location]

/-- A run without failures accounts for the literals of earlier runs. -/
theorem Tidy.accounted (member : old ∈ made) (accounted : Accounted project workspace.disk old) :
    Accounted project after.disk old := by
  have module : old.location.module ∈ old.location.artifacts := Location.mem_artifacts.mpr (.inl rfl)
  have declaration : old.location.declaration ∈ old.location.artifacts := Location.mem_artifacts.mpr (.inr rfl)
  by_cases renews : Renews project seed sources workspace.disk old.source old.hash
  · obtain ⟨known, found, derived⟩ := tidy.find?_of_renewed confined present real ran succeeded renews
    refine ⟨accounted.module, ?_, .inl ⟨known, found⟩⟩
    by_cases same : placeOf (project.workingDir.joinSlashed known.declaration) = placeOf old.location.declaration
    · exact .inl ⟨known, found, same⟩
    · refine .inr (tidy.fileless_of_elsewhere confined present real ran member declaration (fun _ other made => ?_)
        (accounted.declared.resolve_left ?_))
      · obtain ⟨pair, listed, record, planned, fresh, source, hash⟩ := renews
        have crossed := (tidy.distinct old member pair listed record planned fresh).crossed.1
        rw [location_of_planned planned, source, hash] at crossed
        rcases Location.mem_artifacts.mp made with here | here
        · rw [here]
          exact crossed
        · rw [here, ← derived]
          exact same
      · rintro ⟨other, also, _⟩
        obtain ⟨_, _, _, unknown⟩ := renews.exists_occurrence
        rw [also] at unknown
        cases unknown
  · have idle : ∀ path ∈ old.location.artifacts, workspace.disk.Fileless (placeOf path) →
        after.disk.Fileless (placeOf path) := fun path artifact =>
      tidy.fileless_of_elsewhere confined present real ran member artifact (absurd · renews)
    cases found : (Cache.partition (Cache.load workspace.disk project) old.source).find? old.hash with
    | none => exact ⟨accounted.module, .inr (idle _ declaration (accounted.declared.resolve_left (by simp [found]))),
        .inr (idle _ module (accounted.generated.resolve_left (by simp [found])))⟩
    | some known =>
      rcases tidy.find?_cases confined present real ran succeeded found with kept | ⟨scanned, listed, stale⟩
      · refine ⟨accounted.module, ?_, .inl ⟨known, kept⟩⟩
        rcases accounted.declared with ⟨other, also, same⟩ | fileless
        · obtain rfl : known = other := Option.some.inj (found.symm.trans also)
          exact .inl ⟨known, kept, same⟩
        · exact .inr (idle _ declaration fileless)
      · have gone : ∀ path ∈ old.location.artifacts, after.disk.Fileless (placeOf path) := fun path artifact =>
          tidy.gone_of_stale confined present real ran succeeded member accounted listed stale artifact
        exact ⟨accounted.module, .inr (gone _ declaration), .inr (gone _ module)⟩

theorem Tidy.accounted_made (member : old ∈ report.made) : Accounted project after.disk old := by
  obtain ⟨outcome, processed, recorded⟩ := List.mem_flatMap.mp member
  obtain ⟨recorded, fresh⟩ := List.mem_filter.mp recorded
  obtain ⟨scanned, listed, planned, _⟩ := planned_of_run present real ran processed
  rw [planned] at recorded
  have renews : Renews project seed sources workspace.disk old.source old.hash :=
    ⟨_, listed, old, recorded, Bool.not_eq_true' _ ▸ fresh, rfl, rfl⟩
  obtain ⟨known, found, derived⟩ := tidy.find?_of_renewed confined present real ran succeeded renews
  have located := location_of_planned recorded
  exact ⟨by rw [located], .inl ⟨known, found, by rw [derived, located]⟩, .inl ⟨known, found⟩⟩

end

end Run

end TypedLiterals
