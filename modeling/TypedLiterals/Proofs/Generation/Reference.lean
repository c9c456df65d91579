import TypedLiterals.Proofs.Generation.Again
import TypedLiterals.Proofs.Generation.History
import TypedLiterals.Proofs.Reference
import TypedLiterals.Proofs.Specifier

/-!
Imports that lead to generated modules.

After a run every new import leads from the directory of the rewritten file to a typed module on the disk.
An import that the source had already leads where it led, as long as the file stays in its directory. Both go on
to lead there while runs, edits and changes of the configuration follow, as long as the source uses the literal.
-/

namespace TypedLiterals

open Disk (Place placeOf)

variable {project other : Project} {engine : Engine} {seed : String} {options : Run.Options}
  {sources : List String} {workspace after : Workspace} {progress : Run.Progress} {report : Report}
  {source hash specifier : String} {pair : String × SourceScan} {disk prepared : Disk} {path : Path}
  {cacheBase workBase : Place}

namespace Disk

/-- Where no link stands on the way of an open directory, there are directories all along. -/
theorem Opens.paved {place : Place} (opens : disk.Opens path place) (direct : disk.Direct path) :
    disk.Paved (pathNames path.text) := by
  intro spot member
  obtain ⟨front, ⟨back, split⟩, rfl⟩ := mem_way.mp member
  rw [Direct, ← split, clear_append] at direct
  by_cases last : back = []
  · subst last
    rw [List.append_nil] at split
    have leads := opens.1
    rw [Leads, ← split] at leads
    have same : place = resolve [] front := leads.place_eq direct.1
    exact same ▸ opens.2
  · have leads := opens.1
    rw [Leads, ← split] at leads
    obtain ⟨base, _, led, rest⟩ := leads.of_append last
    have same : base = resolve [] front := led.place_eq direct.1
    obtain ⟨name, later, more⟩ := List.exists_cons_of_ne_nil last
    rw [more] at rest
    exact same ▸ rest.inside

end Disk

namespace Path

theorem isAbsolute_join {base rel : Path} (absolute : base.isAbsolute = true) :
    (base.join rel).isAbsolute = true := by
  obtain ⟨rest, whole⟩ : ∃ rest, base.text.toList = '/' :: rest :=
    List.head?_eq_some_iff.mp (by simpa [isAbsolute] using absolute)
  unfold join
  split
  · assumption
  · split
    · simp [isAbsolute, whole]
    · simp [isAbsolute, whole]

theorem isAbsolute_joinSlashed {base : Path} (rel : String) (absolute : base.isAbsolute = true) :
    (base.joinSlashed rel).isAbsolute = true := by
  rw [joinSlashed_eq]
  generalize namePieces rel = pieces
  induction pieces generalizing base with
  | nil => exact absolute
  | cons piece later ih => exact ih (isAbsolute_join absolute)

theorem isAbsolute_parent? {parent : Path} (absolute : path.isAbsolute = true)
    (above : path.parent? = some parent) : parent.isAbsolute = true := by
  have head := splitHead_of_isAbsolute absolute
  unfold parent? at above
  dsimp only at above
  rw [Text.characters_eq, head] at above
  split at above
  · cases above
    simp [isAbsolute]
  · cases above

end Path

/-- The modules that the calls of a source will refer to, in their order. -/
def Plan.artifacts (plan : Plan) : List Artifact :=
  plan.records.map fun record => ⟨record.hash, record.location.module⟩

/-! ## Specifiers of typed modules -/

/-- Whether a specifier leads from a directory to the typed module of a literal, and the module is on the disk. -/
structure Resolves (project : Project) (disk : Disk) (directory : Path) (specifier source hash : String) : Prop where
  place : placeOf (directory.join ⟨specifier ++ moduleSuffix⟩) = placeOf (project.location source hash).module
  file : disk.isFile (project.location source hash).module = true

namespace Project

theorem isAbsolute_module (project : Project) (rooted : project.workingDir.isAbsolute = true)
    (source hash : String) : (project.location source hash).module.isAbsolute = true := by
  have cacheRooted : project.cacheDir.isAbsolute = true := by
    rw [cacheDir]
    exact Path.isAbsolute_join rooted
  rw [location, Location.ofLiteral]
  dsimp only
  rw [Path.isAbsolute_joinSlashed _ cacheRooted]

theorem exists_steps_module (project : Project) (present : Path.slashPieces source ≠ [])
    (digest : Digest.IsDigest hash) : ∃ front stem,
      (project.location source hash).module.steps = front ++ [String.ofList (stem ++ moduleSuffix.toList)] := by
  obtain ⟨front, stem, names⟩ := Location.getLast_fileNames source hash moduleSuffix
  refine ⟨(Disk.pathNames project.cacheDir.text ++ project.rootNames ++ front).filter (· ≠ "."), stem, ?_⟩
  rw [Path.steps, pathNames_module project present digest, moduleNames, names, ← List.append_assoc,
    ← List.append_assoc, List.filter_append]
  congr 1
  refine List.filter_eq_self.mpr fun name member => ?_
  rw [List.mem_singleton.mp member]
  have notDot : String.ofList (stem ++ moduleSuffix.toList) ≠ "." := by
    intro dot
    have lengths := congrArg (fun text : String => text.toList.length) dot
    simp [moduleSuffix] at lengths
  simpa using notDot

end Project

/-- No module stands on the way to a directory that is open. -/
theorem Disk.Opens.outside {directory target : Path} {place : Place} (opens : disk.Opens directory place)
    (direct : disk.Direct directory) (targetDirect : disk.Direct target) (file : disk.isFile target = true)
    (rooted : directory.isAbsolute = true) (targetRooted : target.isAbsolute = true)
    (descends : Path.Component.parent ∉ directory.components) : ¬ target.components <+: directory.components := by
  intro inside
  obtain ⟨down, components, steps, names⟩ := Path.exists_components rooted
  obtain ⟨goal, targetComponents, targetSteps, _⟩ := Path.exists_components targetRooted
  rw [components, targetComponents] at inside
  have shorter := (List.cons_prefix_cons.mp inside).2
  have plain : ∀ name ∈ down.map (·.text), Disk.IsPlain name := by
    intro name member
    obtain ⟨component, listed, rfl⟩ := List.mem_map.mp member
    obtain ⟨piece, _, named, rfl⟩ := names component listed
    refine Path.isPlain_pieceComponent named fun up => descends ?_
    rw [components, ← up]
    exact List.mem_cons_of_mem _ listed
  have prefix_ : placeOf target <+: placeOf directory := by
    rw [Path.placeOf_eq, Path.placeOf_eq, steps, targetSteps, Disk.resolve_plain _ plain,
      Disk.resolve_plain _ fun name member => plain name ((shorter.map _).subset member)]
    simpa using shorter.map _
  have directory := (opens.paved direct).above _ prefix_
  obtain ⟨_, spot, leads, node, stands, content, rfl⟩ := Disk.isFile_iff.mp file
  rw [targetDirect.leads_eq leads, directory] at stands
  cases stands

theorem Path.placeOf_join_congr {base other : Path} (same : placeOf base = placeOf other) (rel : Path) :
    placeOf (base.join rel) = placeOf (other.join rel) := by
  cases absolute : rel.isAbsolute with
  | true => rw [join, join, absolute, if_pos rfl, if_pos rfl]
  | false =>
      rw [placeOf, placeOf, pathNames_join absolute, pathNames_join absolute, Disk.resolve_append,
        Disk.resolve_append, ← placeOf, ← placeOf, same]

/-! ## Projects over time -/

/-- Whether two projects keep their cache and their artifacts at the same places. -/
structure Project.SamePlaces (project other : Project) : Prop where
  cacheDir : other.cacheDir = project.cacheDir
  location : ∀ source hash, other.location source hash = project.location source hash

/-- The disks that a project comes by from one without a cache, by runs, by edits that leave the cache document
and the artifacts of its entries, and by changes of its configuration that leave the places of both. -/
inductive Chronicle : Project → Disk → Prop
  | start {project : Project} {disk : Disk} (empty : Cache.load disk project = .empty) : Chronicle project disk
  | edit {project : Project} {before after : Disk} (earlier : Chronicle project before)
      (cache : Cache.load after project = Cache.load before project)
      (artifacts : ∀ source hash known,
        (Cache.partition (Cache.load before project) source).find? hash = some known →
        ∀ path ∈ (project.location source hash).artifacts, before.isFile path = true →
          after.isFile path = true) : Chronicle project after
  | configure {project other : Project} {disk : Disk} (earlier : Chronicle project disk)
      (same : project.SamePlaces other) : Chronicle other disk
  | run {project : Project} {engine : Engine} {seed : String} {options : Run.Options} {sources : List String}
      {workspace after : Workspace} {report : Report} (earlier : Chronicle project workspace.disk)
      (ordinary : Ordinary project engine seed options sources workspace)
      (ran : run project engine seed options sources workspace = (.ok report, after)) :
      Chronicle project after.disk

theorem Cache.load_congr (same : other.cacheDir = project.cacheDir) :
    Cache.load disk other = Cache.load disk project := by
  have document : Cache.path other = Cache.path project := by
    rw [Cache.path, Cache.path, same]
  unfold Cache.load
  rw [document]

theorem Trustworthy.of_samePlaces (trustworthy : Trustworthy project disk) (same : project.SamePlaces other) :
    Trustworthy other disk := by
  intro source hash known found
  rw [Cache.load_congr same.cacheDir] at found
  obtain ⟨canonical, descends, digest, backed⟩ := trustworthy source hash known found
  refine ⟨canonical, descends, digest, ⟨?_, ?_⟩⟩
  · rw [same.location]
    exact backed.declaration
  · rw [same.location]
    exact backed.files

theorem Chronicle.trustworthy (chronicle : Chronicle project disk) : Trustworthy project disk := by
  induction chronicle with
  | start empty => exact (History.start empty).trustworthy
  | edit _ cache artifacts ih => exact ih.edit cache artifacts
  | configure _ same ih => exact ih.of_samePlaces same
  | run _ ordinary ran ih => exact ih.run ordinary ran

/-- How a project goes on while a source uses a literal: by edits that leave the cache document and the artifacts
of its entries, by changes of its configuration that leave the places of both, and by runs that find the literal
called or imported in the source, if they process it. -/
inductive Usage (source hash : String) (project : Project) (disk : Disk) : Project → Disk → Prop
  | refl : Usage source hash project disk project disk
  | edit {later : Project} {before after : Disk} (earlier : Usage source hash project disk later before)
      (cache : Cache.load after later = Cache.load before later)
      (artifacts : ∀ source hash known,
        (Cache.partition (Cache.load before later) source).find? hash = some known →
        ∀ path ∈ (later.location source hash).artifacts, before.isFile path = true →
          after.isFile path = true) : Usage source hash project disk later after
  | configure {later other : Project} {last : Disk} (earlier : Usage source hash project disk later last)
      (same : later.SamePlaces other) : Usage source hash project disk other last
  | run {later : Project} {engine : Engine} {seed : String} {options : Run.Options} {sources : List String}
      {workspace after : Workspace} {report : Report}
      (earlier : Usage source hash project disk later workspace.disk)
      (ordinary : Ordinary later engine seed options sources workspace)
      (ran : run later engine seed options sources workspace = (.ok report, after))
      (used : ∀ pair ∈ Run.filled workspace.disk later sources, pair.1 = source →
        hash ∈ pair.2.hashesInUse seed) : Usage source hash project disk later after.disk

/-- While a source uses a literal, its entry is kept and its artifacts stay where they are. -/
theorem Usage.kept {later : Project} {last : Disk} {known : KnownLiteral}
    (usage : Usage source hash project disk later last) (trustworthy : Trustworthy project disk)
    (found : (Cache.partition (Cache.load disk project) source).find? hash = some known) :
    Trustworthy later last ∧ (Cache.partition (Cache.load last later) source).find? hash = some known ∧
      later.location source hash = project.location source hash := by
  induction usage with
  | refl => exact ⟨trustworthy, found, rfl⟩
  | edit _ cache artifacts ih =>
      obtain ⟨before, entry, place⟩ := ih
      exact ⟨before.edit cache artifacts, by rw [cache, entry], place⟩
  | configure _ same ih =>
      obtain ⟨before, entry, place⟩ := ih
      exact ⟨before.of_samePlaces same, by rw [Cache.load_congr same.cacheDir, entry],
        (same.location source hash).trans place⟩
  | run _ ordinary ran used ih =>
      obtain ⟨before, entry, place⟩ := ih
      exact ⟨before.run ordinary ran, ordinary.find?_of_run before ran entry used, place⟩

/-- What leads to the typed module of a literal in use goes on to lead there. -/
theorem Usage.resolves {later : Project} {last : Disk} {known : KnownLiteral} {directory : Path}
    (usage : Usage source hash project disk later last) (trustworthy : Trustworthy project disk)
    (found : (Cache.partition (Cache.load disk project) source).find? hash = some known)
    (place : placeOf (directory.join ⟨specifier ++ moduleSuffix⟩) =
      placeOf (project.location source hash).module) : Resolves later last directory specifier source hash := by
  obtain ⟨trusted, entry, same⟩ := usage.kept trustworthy found
  obtain ⟨_, _, _, backed⟩ := trusted source hash known entry
  refine ⟨?_, backed.files _ List.mem_cons_self⟩
  rw [same]
  exact place

/-! ## What a run leaves -/

namespace Run

theorem direct_module (opens : disk.Opens project.cacheDir cacheBase) (direct : disk.Direct (Cache.path project))
    (apt : Project.Apt project disk cacheBase workBase source) (digest : Digest.IsDigest hash) :
    disk.Direct (project.location source hash).module := by
  rw [Disk.Direct, Cache.path, Cache.pathNames_cacheDir_join List.mem_cons_self, Disk.clear_append] at direct
  have base : cacheBase = Disk.resolve [] (Disk.pathNames project.cacheDir.text) :=
    Disk.Walks.place_eq opens.1 direct.1
  rw [Disk.Direct, Project.pathNames_module project apt.descends.1 digest, Disk.clear_append, ← base]
  exact ⟨direct.1, apt.clear.modules hash⟩

theorem exists_sites (ordinary : Ordinary project engine seed options sources workspace)
    (made : (ensureDirectories project workspace.disk).1 = .ok ())
    (member : pair ∈ filled workspace.disk project sources) : ∃ cacheBase workBase,
      Project.Sites project (ensureDirectories project workspace.disk).2 cacheBase workBase := by
  obtain ⟨cacheBase, opens⟩ := ensureDirectories_opens made
  obtain ⟨canonical, descends⟩ := ordinary.canonical member
  obtain ⟨workBase, work⟩ := opens_of_mem_filled descends canonical member
  exact ⟨cacheBase, workBase, opens,
    work.of_keepsWays (ensureDirectories_grows project workspace.disk).keeps.ways⟩

theorem scan_of_mem_filled {before : Disk} (member : pair ∈ filled before project sources) :
    scan project.config.literals (project.workingDir.joinSlashed pair.1) pair.2.text project.grammar =
      .ok pair.2 := by
  have scanned := scanFile_of_mem_filled member
  unfold scanFile at scanned
  dsimp only at scanned
  split at scanned
  · cases scanned
  · next text _ =>
    cases found : scan project.config.literals (project.workingDir.joinSlashed pair.1) text project.grammar with
    | error cause =>
        rw [found] at scanned
        cases scanned
    | ok result =>
        rw [found] at scanned
        cases scanned
        have same : pair.2.text = text := by
          obtain ⟨dialect, whole⟩ := exists_of_scan found
          rw [whole]
          rfl
        rw [same, found]

theorem exists_rewritePath (project : Project) (destination : Destination) (source : String) :
    ∃ base : Path, rewritePath project destination source = base.joinSlashed source ∧
      (project.workingDir.isAbsolute = true → base.isAbsolute = true) := by
  cases destination with
  | inPlace => exact ⟨project.workingDir, rfl, id⟩
  | directory dir => exact ⟨project.workingDir.join dir, rfl, Path.isAbsolute_join⟩

theorem isAbsolute_rewritePath (destination : Destination) (source : String)
    (rooted : project.workingDir.isAbsolute = true) :
    (rewritePath project destination source).isAbsolute = true := by
  obtain ⟨base, same, absolute⟩ := exists_rewritePath project destination source
  rw [same]
  exact Path.isAbsolute_joinSlashed source (absolute rooted)

/-- The new form of a source stands in its directory. -/
theorem exists_outputDir (project : Project) (destination : Destination) (canonical : Path.slashed source = source)
    (descends : Path.Descends source) : ∃ rest,
      Disk.pathNames (rewritePath project destination source).text =
        Disk.pathNames (outputDir project destination source).text ++ rest ∧
      (rewritePath project destination source).parent? = some (outputDir project destination source) := by
  obtain ⟨base, same, _⟩ := exists_rewritePath project destination source
  rw [outputDir]
  rcases Path.exists_parent (rewritePath project destination source) with
    dots | ⟨parent, dots, name, more, above, names, _⟩
  · obtain ⟨piece, listed⟩ := List.exists_mem_of_ne_nil _ descends.1
    have valid := Path.isPiece_of_mem_slashPieces listed
    refine absurd (dots (String.ofList piece) ?_) (Path.ofList_ne_dot valid.1)
    rw [same, Path.pathNames_joinSlashed, ← canonical, Path.slashed,
      Path.pathNames_joinSlashes fun _ inside => Path.isPiece_of_mem_slashPieces inside]
    exact List.mem_append_right _ (List.mem_map_of_mem listed)
  · rw [above, Option.getD_some, names]
    exact ⟨dots ++ name :: more, by rw [List.append_assoc], rfl⟩

section

variable (trustworthy : Trustworthy project workspace.disk)
  (ordinary : Ordinary project engine seed options sources workspace) (present : sources ≠ [])
  (ran : run project engine seed options sources workspace = (.ok report, after))
  (member : pair ∈ filled workspace.disk project sources)
include trustworthy ordinary present ran member

/-- A run leaves the artifacts of what its sources call and import. -/
theorem isFile_of_run (used : hash ∈ pair.2.hashesInUse seed) (digest : Digest.IsDigest hash)
    (inside : path ∈ (project.location pair.1 hash).artifacts) (file : workspace.disk.isFile path = true) :
    after.disk.isFile path = true := by
  obtain ⟨made, finished⟩ := run_eq_ok present ordinary.real ran
  obtain ⟨cacheBase, workBase, sites⟩ := exists_sites ordinary made member
  obtain ⟨begun, apt⟩ := ordinary.sound trustworthy sites
  have grows := ensureDirectories_grows project workspace.disk
  have distinct := nodup_filled workspace.disk project sources
  suffices reached : Sound project (ensureDirectories project workspace.disk).2 cacheBase workBase
        (last project engine seed options sources workspace) ∧
      (last project engine seed options sources workspace).workspace.disk.isFile path = true from
    reached.1.isFile_finish sites ordinary.unlinked finished (apt pair member) digest inside reached.2
  unfold last
  refine steps_induction
    (fun progress => Sound project (ensureDirectories project workspace.disk).2 cacheBase workBase progress ∧
      progress.workspace.disk.isFile path = true) ?_ ⟨begun, ?_⟩
  · rintro front next back split ⟨sound, file⟩
    have listed : next ∈ filled workspace.disk project sources := by simp [split]
    have written : ¬ FailsLate project engine seed options
        (steps project engine seed options (start project sources workspace) front) next.1 next.2 :=
      fun late => ordinary.written next.1 next.2 ⟨front, back, split, late⟩
    refine ⟨sound.step ordinary.faithful ordinary.inline sites (apt next listed) written,
      sound.isFile_step ordinary.faithful sites (apt next listed) (apt pair member) digest ?_ inside file⟩
    rintro ⟨sameSource, stale⟩
    have same : next = pair := List.inj_on_of_nodup_map distinct listed member sameSource.symm
    exact (mem_stale.mp stale).2 (same ▸ used)
  · rw [start_disk]
    exact grows.keeps.isFile file

variable (confined : Generation.Confined engine)
  (placed : Placed project seed options sources workspace.disk) (succeeded : report.failures = [])
include confined placed succeeded

omit trustworthy in
/-- A run leaves an entry for each call. -/
theorem entry_of_run {artifact : Artifact}
    (listed : artifact ∈ (Plan.ofScan project seed pair.1 pair.2
      (Cache.partition (Cache.load workspace.disk project) pair.1)).artifacts) :
    artifact.module = (project.location pair.1 artifact.hash).module ∧
      ∃ known, (Cache.partition (Cache.load after.disk project) pair.1).find? artifact.hash = some known := by
  obtain ⟨record, recorded, rfl⟩ := List.mem_map.mp listed
  rw [records_ofScan] at recorded
  obtain ⟨occurrence, called, rfl⟩ := List.mem_map.mp recorded
  have settled := (settled_of_run confined present ordinary.real ran placed succeeded member).skip
    (Plan.record project seed pair.1 (Cache.partition (Cache.load after.disk project) pair.1) occurrence)
    (by rw [records_ofScan]; exact List.mem_map_of_mem called)
  rw [record_skip, Table.contains_eq_true] at settled
  obtain ⟨known, found⟩ := settled
  dsimp only
  rw [record_hash, record_location]
  exact ⟨rfl, known, found⟩

/-- A run that writes a source into a directory without steps up can name its modules from there. -/
theorem reaches_of_run (rooted : project.workingDir.isAbsolute = true)
    (descends : .parent ∉ (outputDir project options.destination pair.1).components)
    (digest : Digest.IsDigest hash)
    (file : after.disk.isFile (project.location pair.1 hash).module = true) :
    Path.Reaches (outputDir project options.destination pair.1) (project.location pair.1 hash).module
      moduleSuffix := by
  obtain ⟨canonical, below⟩ := ordinary.canonical member
  obtain ⟨rest, names, above⟩ := exists_outputDir project options.destination canonical below
  have outputRooted := Path.isAbsolute_parent? (isAbsolute_rewritePath options.destination pair.1 rooted) above
  have moduleRooted := project.isAbsolute_module rooted pair.1 hash
  obtain ⟨_, _, _, _, opens⟩ := stands_of_run confined present ordinary.real ran placed succeeded member
  obtain ⟨made, _⟩ := run_eq_ok present ordinary.real ran
  obtain ⟨cacheBase, workBase, sites⟩ := exists_sites ordinary made member
  have grows := ensureDirectories_grows project workspace.disk
  have links : ∀ place target, after.disk.node? place = some (.link target) →
      (ensureDirectories project workspace.disk).2.node? place = some (.link target) := by
    obtain ⟨_, spares, _⟩ := ended_of_run confined present ordinary.real ran placed
    exact fun place target link => (placed.spares confined).links place target (spares.links place target link)
  have direct : after.disk.Direct (outputDir project options.destination pair.1) := by
    have own := (placed.lasting pair member).own
    rw [Disk.Direct, names, Disk.clear_append] at own
    exact (Disk.Clear.of_links grows.keeps.links own.1).of_links links
  have moduleDirect : after.disk.Direct (project.location pair.1 hash).module := by
    have cacheDirect := (placed.direct _ List.mem_cons_self).of_links grows.keeps.links
    exact (direct_module sites.cache cacheDirect ((ordinary.sound trustworthy sites).2 pair member) digest).of_links
      links
  exact ⟨outputRooted, moduleRooted, descends,
    opens.outside direct moduleDirect file outputRooted moduleRooted descends,
    project.exists_steps_module below.1 digest⟩

end

end Run

/-- After a run every import of a generated module in a rewritten source leads to the module from the directory
of the file: the new ones do, and those that the source had already do as before when the file stays in its
directory. Whatever runs, edits and changes of the configuration follow, they lead there as long as the source
uses the literal, those that the source had already if the cache knew of them. -/
theorem rewritten_imports_resolve (chronicle : Chronicle project workspace.disk)
    (ordinary : Ordinary project engine seed options sources workspace) (confined : Generation.Confined engine)
    (placed : Run.Placed project seed options sources workspace.disk)
    (ran : run project engine seed options sources workspace = (.ok report, after))
    (succeeded : report.failures = []) (rooted : project.workingDir.isAbsolute = true)
    (member : pair ∈ Run.filled workspace.disk project sources)
    (nested : (project.grammar pair.2.dialect pair.2.text.toList).WellNested)
    (descends : .parent ∉ (Run.outputDir project options.destination pair.1).components) :
    let directory := Run.outputDir project options.destination pair.1
    let artifacts := (Plan.ofScan project seed pair.1 pair.2
      (Cache.partition (Cache.load workspace.disk project) pair.1)).artifacts
    ∃ text, after.disk.read (Run.rewritePath project options.destination pair.1) = .ok text.toUTF8 ∧
      pair.2.rewrite artifacts directory = .ok text ∧
      (∀ artifact ∈ newImports pair.2.importedHashes artifacts,
        (∃ front back, text.toList = front ++ ((importLine directory artifact).toList ++ back)) ∧
        ∀ later last, Usage pair.1 artifact.hash project after.disk later last →
          Resolves later last directory (Path.specifier directory artifact.module moduleSuffix) pair.1
            artifact.hash) ∧
      ∀ statement hash specifier,
        Scan.Refers pair.2.text.toList (project.grammar pair.2.dialect pair.2.text.toList) statement hash
          specifier →
        Digest.IsDigest hash → importOffset pair.2.text.toList ≤ statement.span.start →
        placeOf directory = placeOf (Run.outputDir project .inPlace pair.1) →
        Resolves project workspace.disk (Run.outputDir project .inPlace pair.1) specifier pair.1 hash →
        (∀ part ∈ statement.all, part.textIn pair.2.text.toList ≠ [] →
          pair.2.Keeps artifacts directory text part.span) ∧
        Resolves project after.disk directory specifier pair.1 hash ∧
        ∀ known, (Cache.partition (Cache.load workspace.disk project) pair.1).find? hash = some known →
          ∀ later last, Usage pair.1 hash project after.disk later last →
            Resolves later last directory specifier pair.1 hash := by
  intro directory artifacts
  -- A new import names a literal that the run put into the cache, and an old one a literal in use: in both
  -- cases the cache vouches for the module, and later runs keep what the cache vouches for.
  have trustworthy := chronicle.trustworthy
  have trusted := trustworthy.run ordinary ran
  have present : sources ≠ [] := by
    rintro rfl
    cases Run.mem_slashed_of_mem_filled member
  obtain ⟨text, _, new, read, _⟩ :=
    (Run.stands_of_run confined present ordinary.real ran placed succeeded member).congr
      (Cache.partition (Cache.load workspace.disk project) pair.1)
  have rewritten : pair.2.rewrite artifacts directory = .ok text := new
  refine ⟨text, read, rewritten, fun artifact added => ?_, ?_⟩
  · obtain ⟨located, known, found⟩ := Run.entry_of_run ordinary present ran member confined placed
      succeeded (SourceScan.mem_of_mem_newImports added)
    obtain ⟨_, _, digest, backed⟩ := trusted _ _ _ found
    refine ⟨SourceScan.exists_importLine rewritten added, fun later last usage => ?_⟩
    refine usage.resolves trusted found ?_
    rw [located]
    exact (Run.reaches_of_run trustworthy ordinary present ran member confined placed succeeded rooted descends
      digest (backed.files _ List.mem_cons_self)).placeOf
  · intro statement hash specifier refers digest behind same resolves
    have scanned := Run.scan_of_mem_filled member
    have used : hash ∈ pair.2.hashesInUse seed :=
      List.mem_append_right _ (refers.mem_importedHashes scanned)
    have place : placeOf (directory.join ⟨specifier ++ moduleSuffix⟩) =
        placeOf (project.location pair.1 hash).module :=
      (Path.placeOf_join_congr same _).trans resolves.place
    refine ⟨fun part inside present => SourceScan.keeps_reference scanned nested rewritten refers behind inside present,
      ⟨place, Run.isFile_of_run trustworthy ordinary present ran member used digest List.mem_cons_self
        resolves.file⟩, fun known found later last usage => ?_⟩
    refine usage.resolves trusted (ordinary.find?_of_run trustworthy ran found fun other listed named => ?_) place
    rwa [List.inj_on_of_nodup_map (Run.nodup_filled workspace.disk project sources) listed member named]

theorem smallDisk_empty : Cache.load Run.smallDisk Run.smallProject = .empty :=
  Table.eq_empty (by decide +kernel)

open Run in
theorem ordinary_smallDisk
    (ran : run smallProject blankEngine "" repeatedOptions ["a.ts"] ⟨smallDisk, []⟩ = (.ok report, after))
    (succeeded : report.failures = []) :
    Ordinary smallProject blankEngine "" repeatedOptions ["a.ts"] ⟨smallDisk, []⟩ := by
  have noLink : ∀ place target,
      (ensureDirectories smallProject smallDisk).2.node? place ≠ some (.link target) :=
    fun place target link => smallDisk_noLink place target
      ((ensureDirectories_grows smallProject smallDisk).keeps.links place target link)
  refine ⟨rfl, rfl, faithful_blankEngine, ?_, fun _ _ _ _ _ => noLink _ _,
    fun _ _ _ _ _ => ⟨fun _ => Disk.clear_of_noLink noLink _ _, fun _ => Disk.clear_of_noLink noLink _ _⟩,
    fun source scanned late => ?_⟩
  · intro source listed
    rw [List.mem_singleton.mp listed]
    exact ⟨by decide, by decide⟩
  · have failed := late.mem_failures (by decide) rfl ran
    rw [succeeded] at failed
    cases failed

open Run in
theorem rewritten_imports_resolve_small :
    ∃ report after pair, run smallProject blankEngine "" repeatedOptions ["a.ts"] ⟨smallDisk, []⟩ =
        (.ok report, after) ∧ pair ∈ filled smallDisk smallProject ["a.ts"] ∧
      ∃ text : String,
        after.disk.read (rewritePath smallProject repeatedOptions.destination pair.1) = .ok text.toUTF8 ∧
        ∀ artifact ∈ newImports pair.2.importedHashes (Plan.ofScan smallProject "" pair.1 pair.2
            (Cache.partition (Cache.load smallDisk smallProject) pair.1)).artifacts,
          ∀ later last, Usage pair.1 artifact.hash smallProject after.disk later last →
            Resolves later last (outputDir smallProject repeatedOptions.destination pair.1)
              (Path.specifier (outputDir smallProject repeatedOptions.destination pair.1) artifact.module
                moduleSuffix) pair.1 artifact.hash := by
  obtain ⟨report, after, ran, succeeded⟩ := exists_of_outcome repeatedRun_outcome.1
  have sources := smallDisk_places.2.2.2.1
  obtain ⟨pair, member, named⟩ := List.mem_map.mp (sources ▸ List.mem_singleton_self "a.ts")
  have descends : .parent ∉ (outputDir smallProject repeatedOptions.destination pair.1).components := by
    rw [named]
    decide
  obtain ⟨text, read, _, new, _⟩ := rewritten_imports_resolve (.start smallDisk_empty)
    (ordinary_smallDisk ran succeeded) confined_blankEngine placed_smallDisk ran succeeded (by decide) member
    (Syntax.wellNested_parse _ _) descends
  exact ⟨report, after, pair, ran, member, text, read, fun artifact added => (new artifact added).2⟩

/-- Whether a rewritten source imports a generated module by a specifier that leads to no file. -/
def Dangles (project : Project) (destination : Destination) (source : String) (disk : Disk) : Prop :=
  ∃ text dialect statement hash specifier,
    (disk.readText (Run.rewritePath project destination source)).toOption = some text ∧
    Scan.Refers text.toList (project.grammar dialect text.toList) statement hash specifier ∧
    disk.isFile ((Run.outputDir project destination source).join ⟨specifier ++ moduleSuffix⟩) = false

/-- A project with its artifacts elsewhere. -/
def movedProject : Project :=
  { Run.smallProject with config := { Run.smallProject.config with typesRootDir := "u" } }

/-- The module of the small source below the other root segment. -/
def movedArtifact : Artifact :=
  ⟨"ca978112ca1bbdcafac231b39a23dc4da786eff8147c4e72b9807785afee48bb",
    ⟨"/c/u/a.ts-ca978112ca1bbdcafac231b39a23dc4da786eff8147c4e72b9807785afee48bb.tsx"⟩⟩

/-- The small source in its new form, which imports the module from there. -/
def movedText : String :=
  "import * as Vca978112ca1bbdcafac231b39a23dc4da786eff8147c4e72b9807785afee48bb from " ++
  "'../c/u/a.ts-ca978112ca1bbdcafac231b39a23dc4da786eff8147c4e72b9807785afee48bb';" ++
  "Vca978112ca1bbdcafac231b39a23dc4da786eff8147c4e72b9807785afee48bb"

theorem movedText_rewritten :
    (scan {} ⟨"/a.ts"⟩ Run.smallSource).toOption.map (fun scanned =>
      (Plan.ofScan movedProject "" "a.ts" scanned .empty).records.map fun record =>
        (⟨record.hash, record.location.module⟩ : Artifact)) = some [movedArtifact] ∧
    (scan {} ⟨"/a.ts"⟩ Run.smallSource).toOption.bind (fun scanned =>
      (scanned.rewrite [movedArtifact]
        (Run.outputDir movedProject Run.smallOptions.destination "a.ts")).toOption) = some movedText ∧
    ∃ pair ∈ Scan.imports movedText.toList (Syntax.parse .typeScript movedText.toList),
      pair.2 = "../c/u/a.ts-ca978112ca1bbdcafac231b39a23dc4da786eff8147c4e72b9807785afee48bb" ∧
      (Scan.namespaceOf? movedText.toList pair.1).bind (hashOfName? · pair.2) = some movedArtifact.hash := by
  rw [← Text.characters_eq movedText]
  decide +kernel

theorem movedRun_outcome :
    let first := run Run.smallProject blankEngine "" Run.smallOptions ["a.ts"] ⟨Run.smallDisk, []⟩
    let second := run movedProject blankEngine "" Run.smallOptions ["a.ts"] first.2
    first.1.toOption.map (·.failures) = some [] ∧
      second.1.toOption.map (fun report => (report.failures, report.processed.map (·.source))) =
        some ([], ["a.ts"]) ∧
      (first.2.disk.entries.all fun entry => match entry.2 with | .link _ => false | _ => true) = true ∧
      (Run.filled first.2.disk movedProject ["a.ts"]).map (fun pair => (pair.1, pair.2.text)) =
        [("a.ts", Run.smallSource)] ∧
      Run.otherPaths movedProject "" Run.smallOptions ["a.ts"] first.2.disk "a.ts" = [] ∧
      second.2.disk.isFile ((Run.outputDir movedProject Run.smallOptions.destination "a.ts").join
        ⟨"../c/u/a.ts-ca978112ca1bbdcafac231b39a23dc4da786eff8147c4e72b9807785afee48bb" ++ moduleSuffix⟩) =
        false := by
  decide +kernel

open Run in
/-- When the artifacts are to be elsewhere, a literal that the cache knows is not generated anew, and what
imports its module from the new place finds no file. -/
theorem moved_import_dangles :
    ∃ first second middle after,
      run smallProject blankEngine "" smallOptions ["a.ts"] ⟨smallDisk, []⟩ = (.ok first, middle) ∧
      first.failures = [] ∧
      run movedProject blankEngine "" smallOptions ["a.ts"] middle = (.ok second, after) ∧
      second.failures = [] ∧ second.processed.map (·.source) = ["a.ts"] ∧
      Dangles movedProject smallOptions.destination "a.ts" after.disk := by
  obtain ⟨began, ended, links, listed, others, missing⟩ := movedRun_outcome
  obtain ⟨first, middle, ran, succeeded⟩ := exists_of_outcome began
  rw [ran] at ended links listed others missing
  dsimp only at ended links listed others missing
  obtain ⟨second, after, again, facts⟩ := exists_of_outcome ended
  rw [again] at missing
  obtain ⟨noFailures, processed⟩ := Prod.mk.inj facts
  obtain ⟨⟨source, scanned⟩, filled, named⟩ := List.map_eq_singleton_iff.mp listed
  obtain ⟨rfl, text⟩ := Prod.mk.inj named
  have member : ("a.ts", scanned) ∈ Run.filled middle.disk movedProject ["a.ts"] := by rw [filled]; simp
  -- What the second run writes is the new form of the source that the first run left alone.
  have direct : ∀ path, middle.disk.Direct path := fun path =>
    Disk.clear_of_noLink (Disk.noLink_of_entries links) [] (Disk.pathNames path.text)
  have closing : ∀ path ∈ Cache.path movedProject :: closingPaths movedProject smallOptions,
      placeOf (rewritePath movedProject smallOptions.destination "a.ts") ≠ placeOf path := by decide +kernel
  have placed : Placed movedProject "" smallOptions ["a.ts"] middle.disk := by
    refine ⟨fun pair inside => ?_, fun path _ => direct path, fun pair inside => ?_, nofun⟩
    · rw [filled, List.mem_singleton] at inside
      subst inside
      exact ⟨direct _, fun path _ => direct path, by rw [others]; nofun⟩
    · rw [filled, List.mem_singleton] at inside
      subst inside
      exact closing
  obtain ⟨written, _, new, read, _⟩ :=
    stands_of_run confined_blankEngine (by decide) rfl again placed noFailures member
  have found : scan {} ⟨"/a.ts"⟩ smallSource = .ok scanned := by
    have scans := scan_of_mem_filled member
    have place : movedProject.workingDir.joinSlashed "a.ts" = ⟨"/a.ts"⟩ := by decide
    rw [text, place] at scans
    exact scans
  obtain ⟨planned, rewritten, imports⟩ := movedText_rewritten
  rw [found] at planned rewritten
  have artifacts : ((Plan.ofScan movedProject "" "a.ts" scanned .empty).records.map fun record =>
      (⟨record.hash, record.location.module⟩ : Artifact)) = [movedArtifact] := Option.some.inj planned
  rw [newText_congr _ _ _ _ _ _ .empty, newText, artifacts] at new
  dsimp only [Option.bind_some, Except.toOption] at rewritten
  rw [new] at rewritten
  obtain rfl : written = movedText := Option.some.inj rewritten
  obtain ⟨⟨statement, specifier⟩, listedImport, rfl, bound⟩ := imports
  obtain ⟨ident, name, hashed⟩ := Option.bind_eq_some_iff.mp bound
  exact ⟨first, second, middle, after, ran, succeeded, again, noFailures, processed, movedText, .typeScript,
    statement, movedArtifact.hash, _, by rw [Cache.readText_of_read read]; rfl,
    ⟨listedImport, ident, name, hashed⟩, missing⟩

end TypedLiterals
