import TypedLiterals.Proofs.Generation.Effect

/-!
Caches from one run to the next.

The next run loads what was kept, text for text, but for the sources that have no literal left. Keeping what
was loaded changes nothing on the disk.
-/

namespace TypedLiterals.Cache

open Disk (placeOf above)

variable {project : Project} {disk : Disk} {cache : Cache}

theorem withoutEmpty_withoutEmpty (cache : Cache) : withoutEmpty (withoutEmpty cache) = withoutEmpty cache := by
  apply Table.ext_find?
  intro source
  rw [find?_withoutEmpty, find?_withoutEmpty, Option.filter_filter]
  simp only [Bool.and_self]

theorem document_withoutEmpty (cache : Cache) : document (withoutEmpty cache) = document cache := by
  rw [document, withoutEmpty_withoutEmpty, ← document]

theorem save_congr {left right : Cache} (same : document left = document right) (disk : Disk)
    (project : Project) : save disk project left = save disk project right := by
  unfold save
  generalize document left = text at same
  rw [same]

theorem load_of_readText (read : disk.readText (path project) = .ok (document cache)) :
    load disk project = withoutEmpty cache := by
  have found : ofDocument? (document cache) = some (withoutEmpty cache) := ofDocument?_document cache
  generalize document cache = text at read found
  unfold load
  rw [read]
  simp only [found, Option.getD_some]

theorem ends_cacheDir_join {name : String} (member : name ∈ [fileName, fileName ++ ".tmp"]) :
    Disk.Ends (project.cacheDir.join ⟨name⟩) :=
  ⟨named_cacheDir_join member, _, name, pathNames_cacheDir_join member, isPlain_of_mem member⟩

theorem placeOf_path_ne (project : Project) : placeOf (path project) ≠ placeOf (temporaryPath project) := by
  unfold placeOf path temporaryPath
  have pathMember : fileName ∈ [fileName, fileName ++ ".tmp"] := List.mem_cons_self
  have temporaryMember : fileName ++ ".tmp" ∈ [fileName, fileName ++ ".tmp"] :=
    List.mem_cons_of_mem _ List.mem_cons_self
  rw [pathNames_cacheDir_join pathMember, pathNames_cacheDir_join temporaryMember,
    Disk.resolve_concat _ (isPlain_of_mem pathMember), Disk.resolve_concat _ (isPlain_of_mem temporaryMember)]
  intro same
  exact absurd (List.append_inj' same rfl).2 (by decide)

/-- Whether both documents can be written: neither a link nor a directory takes their places, and nothing but
directories is above them. -/
structure Writable (project : Project) (disk : Disk) : Prop where
  roomy : disk.Roomy [path project, temporaryPath project]
  vacant : ∀ document ∈ [path project, temporaryPath project], disk.node? (placeOf document) ≠ some .directory

/-- Where a cache was kept its document is read, and a cache can be kept again. -/
theorem Writable.save (writable : Writable project disk) (cache : Cache) :
    ∃ after, save disk project cache = (.ok (), after) ∧ Writable project after ∧
      after.read (path project) = .ok (document cache).toUTF8 ∧
      ∀ place, after.node? place =
        if place = placeOf (path project) then some (.file (document cache).toUTF8)
        else if place = placeOf (temporaryPath project) then none
        else if place ∈ above (path project) then some .directory
        else disk.node? place := by
  have first : path project ∈ [path project, temporaryPath project] := List.mem_cons_self
  have second : temporaryPath project ∈ [path project, temporaryPath project] :=
    List.mem_cons_of_mem _ List.mem_cons_self
  obtain ⟨after, saved, nodes⟩ :=
    Run.save_nodes project cache writable.roomy writable.vacant (placeOf_path_ne project)
  have atPath : after.node? (placeOf (path project)) = some (.file (document cache).toUTF8) := by
    rw [nodes, if_pos rfl]
  have atTemporary : after.node? (placeOf (temporaryPath project)) = none := by
    rw [nodes, if_neg (placeOf_path_ne project).symm, if_pos rfl]
  have higher : ∀ place ∈ above (path project), after.node? place = some .directory := by
    intro place inside
    rw [nodes, if_neg, if_neg, if_pos inside]
    · rintro rfl
      exact writable.roomy.apart _ second _ first inside
    · rintro rfl
      exact writable.roomy.apart _ first _ first inside
  have ready : after.Ready (path project) :=
    ⟨ends_cacheDir_join List.mem_cons_self, higher, by rw [atPath]; exact nofun⟩
  refine ⟨after, saved, ⟨⟨writable.roomy.ends, ?_, ?_, writable.roomy.apart⟩, ?_⟩, ready.read atPath, nodes⟩
  · intro other member place inside
    rcases List.mem_pair.mp member with rfl | rfl
    · exact .inr (higher place inside)
    · exact .inr (higher place (Run.Cache.above_temporaryPath project ▸ inside))
  · intro other member
    rcases List.mem_pair.mp member with rfl | rfl
    · simp [atPath]
    · simp [atTemporary]
  · intro other member
    rcases List.mem_pair.mp member with rfl | rfl
    · simp [atPath]
    · simp [atTemporary]

/-- What a run keeps of its cache is what the next one loads: every declaration and every literal of each
source that has one, and no other source. What was loaded is kept as the document that is there. -/
theorem load_of_saved (project : Project) (cache : Cache) :
    (∀ disk : Disk, disk.readText (path project) = .ok (document cache) →
      load disk project = withoutEmpty cache) ∧
    (∀ source, (withoutEmpty cache).find? source =
      (cache.find? source).filter fun partition => !partition.isEmpty) ∧
    (∀ disk, save disk project (withoutEmpty cache) = save disk project cache) ∧
    ∀ disk, Writable project disk → ∃ after again, save disk project cache = (.ok (), after) ∧
      after.read (path project) = .ok (document cache).toUTF8 ∧
      load after project = withoutEmpty cache ∧
      save after project (load after project) = (.ok (), again) ∧
      again.read (path project) = .ok (document cache).toUTF8 ∧
      ∀ place, again.node? place = after.node? place := by
  have same := fun disk : Disk => save_congr (document_withoutEmpty cache) disk project
  refine ⟨fun disk read => load_of_readText read, find?_withoutEmpty cache, same, fun disk writable => ?_⟩
  obtain ⟨after, saved, still, read, nodes⟩ := writable.save cache
  have loaded : load after project = withoutEmpty cache := load_of_readText (readText_of_read read)
  obtain ⟨again, savedAgain, _, readAgain, nodesAgain⟩ := still.save cache
  refine ⟨after, again, saved, read, loaded, ?_, readAgain, fun place => ?_⟩
  · rw [loaded, same, savedAgain]
  · rw [nodesAgain, nodes]
    split
    · rfl
    · split
      · rfl
      · split <;> rfl

/-! ## On an empty disk -/

/-- A cache with texts that JSON escapes, one of them beyond the first plane, and with a source that has no
literal left. -/
def escapedCache : Cache :=
  Table.ofList
    [("a b.ts", Table.ofList [("0f", ⟨"t/a\\b\x22.d.ts", "\x00\x08\t\n\x0c\r\x1f\x7f\u2028\u2029😀"⟩), ("", ⟨"", "/"⟩)]),
      ("b.ts", .empty)]

theorem writable_nil : Writable Run.smallProject ⟨[]⟩ := by
  have nodes : ∀ place, (⟨[]⟩ : Disk).node? place = none ∨ (⟨[]⟩ : Disk).node? place = some .directory := by
    intro place
    cases place with
    | nil => exact .inr rfl
    | cons name rest => exact .inl rfl
  refine ⟨⟨fun other member => ?_, fun other _ place _ => nodes place, fun other _ target stands => ?_,
    by decide +kernel⟩, by decide +kernel⟩
  · rcases List.mem_pair.mp member with rfl | rfl
    · exact ends_cacheDir_join List.mem_cons_self
    · exact ends_cacheDir_join (List.mem_cons_of_mem _ List.mem_cons_self)
  · rcases nodes (placeOf other) with none | directory
    · rw [none] at stands
      cases stands
    · rw [directory] at stands
      cases stands

theorem load_of_saved_escaped :
    Writable Run.smallProject ⟨[]⟩ ∧ escapedCache.keys = ["a b.ts", "b.ts"] ∧
    (withoutEmpty escapedCache).keys = ["a b.ts"] ∧
    ∃ after again, save ⟨[]⟩ Run.smallProject escapedCache = (.ok (), after) ∧
      after.read (path Run.smallProject) = .ok (document escapedCache).toUTF8 ∧
      load after Run.smallProject = withoutEmpty escapedCache ∧
      save after Run.smallProject (load after Run.smallProject) = (.ok (), again) ∧
      again.read (path Run.smallProject) = .ok (document escapedCache).toUTF8 ∧
      ∀ place, again.node? place = after.node? place :=
  ⟨writable_nil, by decide +kernel, by decide +kernel,
    (load_of_saved Run.smallProject escapedCache).2.2.2 ⟨[]⟩ writable_nil⟩

end TypedLiterals.Cache
