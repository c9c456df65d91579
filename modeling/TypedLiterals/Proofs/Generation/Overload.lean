import Mathlib.Data.List.Infix
import TypedLiterals.Proofs.FirstOfEach
import TypedLiterals.Proofs.Generation.Again
import TypedLiterals.Proofs.Specifier

/-!
What the combined declaration has for the calls of a run.

It has one overload for each text in the cache. A literal that the cache had keeps the text that was
recorded first, so it is this text that is declared, and not that of a call written in another way.
-/

namespace TypedLiterals

variable {project : Project} {engine : Engine} {seed source hash : String} {options : Run.Options}
  {sources : List String} {workspace after : Workspace} {report : Report} {cache : Cache}
  {content literal : String} {known : KnownLiteral}

namespace Entrypoint

/-! ## Overloads -/

/-- The overload for an entry of the cache. -/
def overloadOf (project : Project) (known : KnownLiteral) : Overload :=
  ⟨known.literal, Path.specifier project.declarationDir
    (project.workingDir.joinSlashed known.declaration) declarationSuffix⟩

/-- Whether an overload stands for an entry: it has its text, and its specifier leads from the directory of the
declarations to the declaration of the entry, if this can be named from there. -/
structure StandsFor (project : Project) (overload : Overload) (known : KnownLiteral) : Prop where
  literal : overload.literal = known.literal
  leads : Path.Reaches project.declarationDir (project.workingDir.joinSlashed known.declaration) declarationSuffix →
    Disk.placeOf (project.declarationDir.join ⟨overload.specifier ++ declarationSuffix⟩) =
      Disk.placeOf (project.workingDir.joinSlashed known.declaration)

theorem standsFor_overloadOf (project : Project) (known : KnownLiteral) :
    StandsFor project (overloadOf project known) known where
  literal := rfl
  leads reaches := by
    dsimp only [overloadOf]
    rw [reaches.placeOf]

/-- Whether a text declares a literal: the block of each module has, for each function, one overload with
exactly this literal, and it stands for the declaration of an entry of the cache. -/
def Covers (project : Project) (cache : Cache) (content literal : String) : Prop :=
  ∃ known ∈ entries cache, known.literal = literal ∧ ∃ list : List Overload,
    (list.map (·.literal)).Nodup ∧ overloadOf project known ∈ list ∧
    ∀ module ∈ project.config.literals.modules, ∃ before behind,
      content = before ++ moduleBlock project.config.literals.functions list module ++ behind

theorem firstOfEach_firstOfLiterals (seen : List String) (list : List KnownLiteral) :
    FirstOfEach (·.literal) (list.filter (·.literal ∉ seen)) (firstOfLiterals seen list) := by
  induction list generalizing seen with
  | nil => exact .nil
  | cons entry rest ih =>
      rw [firstOfLiterals]
      by_cases before : entry.literal ∈ seen
      · rw [if_pos (List.contains_iff_mem.mpr before), List.filter_cons_of_neg (by simpa using before)]
        exact ih seen
      · rw [if_neg (by simpa using before), List.filter_cons_of_pos (by simpa using before)]
        refine .cons ?_
        rw [List.filter_filter]
        simpa [not_or] using ih (entry.literal :: seen)

theorem firstOfEach_entries (cache : Cache) :
    FirstOfEach (·.literal) (entries cache) (firstOfLiterals [] (entries cache)) := by
  simpa using firstOfEach_firstOfLiterals [] (entries cache)

theorem overloads_eq (project : Project) (cache : Cache) :
    overloads project cache = (firstOfLiterals [] (entries cache)).map (overloadOf project) := rfl

theorem join_of_mem {α : Type} {list : List α} {element : α} (written : α → String) (member : element ∈ list) :
    ∃ before behind, String.join (list.map written) = before ++ written element ++ behind := by
  obtain ⟨front, back, rfl⟩ := List.append_of_mem member
  exact ⟨String.join (front.map written), String.join (back.map written), by simp [String.append_assoc]⟩

theorem covers_render (member : known ∈ entries cache) :
    Covers project cache (render project cache) known.literal := by
  have firsts := firstOfEach_entries cache
  obtain ⟨first, chosen, same⟩ := firsts.every known member
  refine ⟨first, firsts.mem chosen, same, overloads project cache, ?_, ?_, fun module listed => ?_⟩
  · rw [overloads_eq, List.map_map]
    exact firsts.nodup
  · exact List.mem_map_of_mem chosen
  · obtain ⟨before, behind, blocks⟩ :=
      join_of_mem (moduleBlock project.config.literals.functions (overloads project cache)) listed
    exact ⟨header ++ before, behind, by rw [render, blocks]; simp only [String.append_assoc]⟩

theorem Covers.line (covers : Covers project cache content literal)
    {module function : String} (listed : module ∈ project.config.literals.modules)
    (also : function ∈ project.config.literals.functions) :
    ∃ overload : Overload, overload.literal = literal ∧
      ∃ before behind, content = before ++ overloadLine function overload ++ behind := by
  obtain ⟨known, _, same, list, _, member, blocks⟩ := covers
  obtain ⟨before, behind, split⟩ := blocks module listed
  obtain ⟨earlier, later, functions⟩ := join_of_mem (functionBlock list) also
  obtain ⟨front, back, lines⟩ := join_of_mem (overloadLine function) member
  rw [moduleBlock, functions, functionBlock, lines] at split
  exact ⟨overloadOf project known, same,
    before ++ "\ndeclare module '" ++ module ++ "' \x7b\n" ++ earlier ++ front,
    back ++ fallbackLine function ++ later ++ "\x7d\n" ++ behind, by
      simp only [split, String.join_cons, String.join_nil, String.append_empty, String.append_assoc]⟩

/-- How the line for a literal begins, up to what it stands for. -/
def opening (function literal : String) : String :=
  String.join ["  export function ", function, "(literal: \x60", literal, "\x60)"]

theorem Covers.opening_infix (covers : Covers project cache content literal)
    {module function : String} (listed : module ∈ project.config.literals.modules)
    (also : function ∈ project.config.literals.functions) :
    textBytes (opening function literal) <:+: textBytes content := by
  obtain ⟨overload, same, before, behind, split⟩ := covers.line listed also
  have line : overloadLine function overload =
      opening function literal ++ (": typeof import('" ++ overload.specifier ++ "');\n") := by
    rw [← same, overloadLine, opening]
    simp only [String.join_cons, String.join_nil, String.append_empty, String.append_assoc]
    rfl
  rw [split, line, textBytes_append, textBytes_append, textBytes_append]
  exact ⟨textBytes before, textBytes (": typeof import('" ++ overload.specifier ++ "');\n") ++ textBytes behind,
    by simp only [List.append_assoc]⟩

theorem mem_entries (found : (cache.partition source).find? hash = some known) : known ∈ entries cache := by
  cases partition : cache.find? source with
  | none =>
      rw [Cache.partition, partition] at found
      cases found
  | some entries =>
      rw [Cache.partition, partition, Option.getD_some] at found
      exact List.mem_flatMap.mpr ⟨entries, List.mem_map_of_mem (Table.mem_entries.mpr partition),
        List.mem_map_of_mem (Table.mem_entries.mpr found)⟩

end Entrypoint

/-- Whether a call is the last one with the fingerprint of another call. -/
structure SourceScan.LastCopy (seed : String) (scanned : SourceScan) (occurrence copy : Occurrence) : Prop where
  same : fingerprint seed copy.literal = fingerprint seed occurrence.literal
  last : ∃ front back, scanned.occurrences = front ++ copy :: back ∧
    ∀ other ∈ back, fingerprint seed other.literal ≠ fingerprint seed occurrence.literal

theorem Partition.entryAfter_of_known {scanned : SourceScan} {partition : Partition} {occurrence : Occurrence}
    (called : occurrence ∈ scanned.occurrences)
    (found : partition.find? (fingerprint seed occurrence.literal) = some known) :
    partition.entryAfter project seed source scanned (fingerprint seed occurrence.literal) = some known := by
  rw [Partition.entryAfter, found]
  exact if_pos (List.mem_append_left _ (List.mem_map_of_mem called))

/-- The entry of a new literal has the text of the last call with its fingerprint. -/
theorem Partition.exists_entryAfter_of_new {scanned : SourceScan} {partition : Partition} {occurrence : Occurrence}
    (called : occurrence ∈ scanned.occurrences)
    (new : partition.find? (fingerprint seed occurrence.literal) = none) :
    ∃ known, partition.entryAfter project seed source scanned (fingerprint seed occurrence.literal) = some known ∧
      ∃ copy, scanned.LastCopy seed occurrence copy ∧ copy.literal = known.literal := by
  obtain ⟨known, entry⟩ : ∃ known, partition.entryAfter project seed source scanned
      (fingerprint seed occurrence.literal) = some known := Partition.exists_entryAfter called
  refine ⟨known, entry, ?_⟩
  rw [Partition.entryAfter, new] at entry
  obtain ⟨last, found, rfl⟩ := Option.map_eq_some_iff.mp entry
  obtain ⟨same, back, front, split, others⟩ := List.find?_eq_some_iff_append.mp found
  refine ⟨last, ⟨by simpa using same, front.reverse, back.reverse, ?_, fun other inside => ?_⟩, rfl⟩
  · rw [← List.reverse_reverse scanned.occurrences, split]
    simp
  · simpa using others other (List.mem_reverse.mp inside)

/-! ## Runs -/

namespace Run

/-- Only a run over sources that is more than a plan writes the combined declaration. -/
theorem real_of_entrypoint {path : Path}
    (ran : run project engine seed options sources workspace = (.ok report, after))
    (wrote : report.entrypoint = some path) : sources ≠ [] ∧ options.dryRun = false ∧ options.entrypoint = true := by
  by_cases present : sources = []
  · subst present
    cases ran
    cases wrote
  cases planned : options.dryRun with
  | true =>
      unfold run at ran
      rw [if_neg (by simpa using present)] at ran
      dsimp only at ran
      rw [if_pos planned] at ran
      cases ran
      cases wrote
  | false =>
      refine ⟨present, rfl, ?_⟩
      by_contra unwanted
      obtain ⟨_, made, _, rfl, _⟩ := finish_eq_ok (run_eq_ok present planned ran).2
      rcases withEntrypoint_eq_ok made with ⟨_, rfl, _⟩ | ⟨wanted, _⟩
      · cases wrote
      · exact unwanted wanted

end Run

/-- A run that writes the combined declaration declares all literals of the sources that it processed: one
that the cache had by the text on record, and a new one by the text of its last call. What is declared belongs to
the cache that is kept and stands for the declaration of its entry, and the text stands when the run is done if the
outputs have places of their own. -/
theorem entrypoint_covers_literals {path : Path}
    (ran : run project engine seed options sources workspace = (.ok report, after))
    (wrote : report.entrypoint = some path) :
    ∃ cache content disk,
      disk.read project.entrypoint = .ok content.toUTF8 ∧ Cache.save disk project cache = (.ok (), after.disk) ∧
      (Generation.Confined engine → Run.Placed project seed options sources workspace.disk →
        after.disk.read project.entrypoint = .ok content.toUTF8) ∧
      (∀ known ∈ Entrypoint.entries cache, Entrypoint.StandsFor project (Entrypoint.overloadOf project known) known) ∧
      ∀ source ∈ report.processed.map (·.source), ∃ scanned,
        Run.scanFile workspace.disk project source = .ok scanned ∧
        ∀ occurrence ∈ scanned.occurrences,
          let recorded := (Cache.partition (Cache.load workspace.disk project) source).find?
            (fingerprint seed occurrence.literal)
          (∀ known, recorded = some known → Entrypoint.Covers project cache content known.literal) ∧
            (recorded = none → ∃ copy, scanned.LastCopy seed occurrence copy ∧
              Entrypoint.Covers project cache content copy.literal) := by
  obtain ⟨present, real, wanted⟩ := Run.real_of_entrypoint ran wrote
  obtain ⟨_, begun, saved, _⟩ := Run.finish_eq_ok (Run.run_eq_ok present real ran).2
  obtain ⟨unwanted, _⟩ | ⟨_, path, made⟩ := Run.withEntrypoint_eq_ok begun
  · rw [wanted] at unwanted
    cases unwanted
  obtain ⟨_, _, _, put⟩ := Run.entrypoint_write_eq_ok_iff.mp made
  refine ⟨_, _, _, Disk.read_of_write put, saved, fun confined placed => ?_,
    fun known _ => Entrypoint.standsFor_overloadOf project known, fun source member => ?_⟩
  · obtain ⟨_, _, _, ended⟩ := Run.ended_of_run confined present real ran placed
    exact (ended.entrypoint wanted).1
  obtain ⟨scanned, scan, _, entries⟩ := Run.entries_of_processed present real ran member
  refine ⟨scanned, scan, fun occurrence called => ?_⟩
  have entry := entries (fingerprint seed occurrence.literal)
  refine ⟨fun known found => ?_, fun new => ?_⟩
  · rw [Partition.entryAfter_of_known called found] at entry
    exact Entrypoint.covers_render (Entrypoint.mem_entries entry)
  · obtain ⟨known, recorded, copy, last, written⟩ := Partition.exists_entryAfter_of_new called new
    rw [recorded] at entry
    exact ⟨copy, last, written ▸ Entrypoint.covers_render (Entrypoint.mem_entries entry)⟩

/-! ## A literal written in another way -/

/-- A disk whose source writes a literal in another way than the cache has it. -/
def reformattedDisk : Disk :=
  ⟨[(["a.ts"], .file Run.smallSource.toUTF8), (["c"], .directory),
    (["c", "literals.json"], .file (String.join ["\x7b\x22a.ts\x22:\x7b\x22",
      "ca978112ca1bbdcafac231b39a23dc4da786eff8147c4e72b9807785afee48bb", "\x22:[\x22t/a.ts-",
      "ca978112ca1bbdcafac231b39a23dc4da786eff8147c4e72b9807785afee48bb", ".d.ts\x22,\x22a \x22]\x7d\x7d"]).toUTF8)]⟩

theorem reformattedRun_outcome :
    let outcome := run Run.smallProject blankEngine "" repeatedOptions ["a.ts"] ⟨reformattedDisk, []⟩
    outcome.1.toOption.map (fun report => (report.failures, report.entrypoint, report.processed.map fun done =>
        (done.source, done.records.map (·.literal)))) =
      some ([], some Run.smallProject.entrypoint, [("a.ts", ["a"])]) ∧
    (outcome.2.disk.read Run.smallProject.entrypoint).toOption.map (fun content =>
        content.data.toList.tails.any (textBytes (Entrypoint.opening "gql" "a")).isPrefixOf) =
      some false := by
  decide +kernel

theorem entrypoint_covers_literals_reformatted :
    ∃ report after cache content disk,
      run Run.smallProject blankEngine "" repeatedOptions ["a.ts"] ⟨reformattedDisk, []⟩ = (.ok report, after) ∧
      report.processed.map (·.source) = ["a.ts"] ∧
      disk.read Run.smallProject.entrypoint = .ok content.toUTF8 ∧
      Cache.save disk Run.smallProject cache = (.ok (), after.disk) ∧
      ∃ scanned, Run.scanFile reformattedDisk Run.smallProject "a.ts" = .ok scanned ∧
        ∀ occurrence ∈ scanned.occurrences,
          let recorded := (Cache.partition (Cache.load reformattedDisk Run.smallProject) "a.ts").find?
            (fingerprint "" occurrence.literal)
          (∀ known, recorded = some known → Entrypoint.Covers Run.smallProject cache content known.literal) ∧
            (recorded = none → ∃ copy, scanned.LastCopy "" occurrence copy ∧
              Entrypoint.Covers Run.smallProject cache content copy.literal) := by
  obtain ⟨report, after, ran, facts⟩ := exists_of_outcome reformattedRun_outcome.1
  simp only [Prod.mk.injEq] at facts
  obtain ⟨_, wrote, done⟩ := facts
  have processed : report.processed.map (·.source) = ["a.ts"] := by
    have names := congrArg (List.map Prod.fst) done
    rwa [List.map_map] at names
  obtain ⟨cache, content, disk, read, saved, _, _, covers⟩ := entrypoint_covers_literals ran wrote
  exact ⟨report, after, cache, content, disk, ran, processed, read, saved,
    covers "a.ts" (by rw [processed]; exact List.mem_cons_self)⟩

/-- A literal that the cache has in another form is not declared as it is written. -/
theorem entrypoint_misses_reformatted :
    ∃ report after content scanned,
      run Run.smallProject blankEngine "" repeatedOptions ["a.ts"] ⟨reformattedDisk, []⟩ = (.ok report, after) ∧
      report.failures = [] ∧ report.entrypoint = some Run.smallProject.entrypoint ∧
      report.processed.map (·.source) = ["a.ts"] ∧
      after.disk.read Run.smallProject.entrypoint = .ok content ∧
      Run.scanFile reformattedDisk Run.smallProject "a.ts" = .ok scanned ∧
      scanned.occurrences.map (·.literal) = ["a"] ∧
      ∀ cache text, text.toUTF8 = content → ¬ Entrypoint.Covers Run.smallProject cache text "a" := by
  obtain ⟨report, after, ran, facts⟩ := exists_of_outcome reformattedRun_outcome.1
  have absent := reformattedRun_outcome.2
  rw [ran] at absent
  simp only [Prod.mk.injEq] at facts
  obtain ⟨succeeded, wrote, done⟩ := facts
  obtain ⟨outcome, only, same⟩ := List.map_eq_singleton_iff.mp done
  obtain ⟨source, literals⟩ := Prod.mk.inj same
  obtain ⟨scanned, listed, planned, _⟩ :=
    Run.planned_of_run (by simp) rfl ran (by rw [only]; exact List.mem_cons_self)
  rw [planned, Run.records_ofScan, List.map_map] at literals
  have scan := Run.scanFile_of_mem_filled listed
  rw [source] at scan
  obtain ⟨content, read, lacks⟩ := Option.map_eq_some_iff.mp absent
  refine ⟨report, after, content, scanned, ran, succeeded, wrote, by rw [only, List.map_singleton, source],
    eq_ok_of_toOption read, scan, literals, fun cache text bytes covers => ?_⟩
  have named := covers.opening_infix (List.mem_singleton.mpr rfl) (List.mem_singleton.mpr rfl)
  obtain ⟨tail, starts, ends⟩ := List.infix_iff_prefix_suffix.mp named
  rw [← bytes, List.any_eq_false] at lacks
  exact lacks tail ((List.mem_tails tail _).mpr ends) (List.isPrefixOf_iff_prefix.mpr starts)

end TypedLiterals
