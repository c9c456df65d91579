import TypedLiterals.Cache
import TypedLiterals.Proofs.Disk.Frame
import TypedLiterals.Proofs.Document.Json
import TypedLiterals.Proofs.Path
import TypedLiterals.Proofs.Table

/-!
Keeping a cache.

The document of a cache reads as the cache without its empty partitions, and what was kept on a disk is
what is loaded from it, unless the document or the one that it is moved from is a link.
-/

namespace TypedLiterals

theorem mapM_map_eq_some {write : α → β} {read : β → Option α} {list : List α}
    (back : ∀ element ∈ list, read (write element) = some element) :
    (list.map write).mapM read = some list := by
  induction list with
  | nil => rfl
  | cons element rest ih =>
      rw [List.map_cons, List.mapM_cons, back element List.mem_cons_self,
        ih fun other member => back other (List.mem_cons_of_mem _ member)]
      rfl

theorem Partition.textual_toJson (partition : Partition) : (Partition.toJson partition).Textual := by
  refine .object ?_
  intro member inside
  obtain ⟨entry, _, rfl⟩ := List.mem_map.mp inside
  refine .array ?_
  intro item found
  rcases List.mem_pair.mp found with rfl | rfl
  · exact .string _
  · exact .string _

theorem Partition.ofJson?_toJson (partition : Partition) :
    Partition.ofJson? (Partition.toJson partition) = some partition := by
  rw [toJson, ofJson?, mapM_map_eq_some, Option.map_some, Table.ofList_entries]
  exact fun entry _ => rfl

namespace Cache

theorem textual_toJson (cache : Cache) : (toJson cache).Textual := by
  refine .object ?_
  intro member inside
  obtain ⟨entry, _, rfl⟩ := List.mem_map.mp inside
  exact Partition.textual_toJson entry.2

theorem ofJson?_toJson (cache : Cache) : ofJson? (toJson cache) = some cache := by
  rw [toJson, ofJson?, mapM_map_eq_some, Option.map_some, Table.ofList_entries]
  intro entry _
  rw [Partition.ofJson?_toJson]
  rfl

theorem ofDocument?_document (cache : Cache) : ofDocument? cache.document = some cache.withoutEmpty := by
  rw [ofDocument?, document, JsonValue.read_pretty (textual_toJson _), Option.bind_some, ofJson?_toJson]

theorem find?_withoutEmpty (cache : Cache) (source : String) :
    cache.withoutEmpty.find? source =
      (cache.find? source).filter fun partition => !partition.isEmpty := by
  rw [withoutEmpty, Table.find?_filter]

theorem partition_withoutEmpty (cache : Cache) (source : String) :
    cache.withoutEmpty.partition source = cache.partition source := by
  rw [partition, partition, find?_withoutEmpty]
  cases cache.find? source with
  | none => rfl
  | some known =>
      cases empty : known.isEmpty with
      | false => rw [Option.filter_some, empty]; rfl
      | true =>
          rw [Option.filter_some, empty, Table.eq_empty empty]
          rfl

theorem partition_insert (cache : Cache) (source other : String) (next : Partition) :
    partition (cache.insert source next) other = if other = source then next else cache.partition other := by
  rw [partition, Table.find?_insert]
  split <;> rfl

/-! ## On a disk -/

/-- Whether no link has the name of the document or of a new document in the cache directory. -/
def Unlinked (project : Project) (disk : Disk) : Prop :=
  ∀ base, disk.Leads project.cacheDir base → ∀ name ∈ [fileName, fileName ++ ".tmp"], ∀ target,
    disk.node? (base ++ [name]) ≠ some (.link target)

theorem isPlain_of_mem {name : String} (member : name ∈ [fileName, fileName ++ ".tmp"]) :
    Disk.IsPlain name := by
  rcases List.mem_pair.mp member with rfl | rfl
  · exact ⟨by decide, by decide⟩
  · exact ⟨by decide, by decide⟩

theorem isName_of_mem {name : String} (member : name ∈ [fileName, fileName ++ ".tmp"]) :
    Path.IsName name.toList := by
  rcases List.mem_pair.mp member with rfl | rfl
  · simp [Path.IsName, fileName, Path.isSlash]
  · simp [Path.IsName, fileName, Path.isSlash]

variable {project : Project} {disk after : Disk} {cache : Cache} {name : String}

theorem named_cacheDir_join (member : name ∈ [fileName, fileName ++ ".tmp"]) :
    Disk.Named (project.cacheDir.join ⟨name⟩) := by
  simpa using Path.named_join_name project.cacheDir (isName_of_mem member)

theorem pathNames_cacheDir_join (member : name ∈ [fileName, fileName ++ ".tmp"]) :
    Disk.pathNames (project.cacheDir.join ⟨name⟩).text = Disk.pathNames project.cacheDir.text ++ [name] := by
  simpa using Path.pathNames_join_name project.cacheDir (isName_of_mem member)

theorem Unlinked.place_eq {follow : Bool} {spot : Disk.Spot} (unlinked : Unlinked project disk)
    (member : name ∈ [fileName, fileName ++ ".tmp"])
    (walks : disk.Walks follow Disk.linkLimit [] (Disk.pathNames (project.cacheDir.join ⟨name⟩).text) spot) :
    ∃ base, disk.Leads project.cacheDir base ∧ disk.node? base = some .directory ∧
      spot.place = base ++ [name] := by
  rw [pathNames_cacheDir_join member] at walks
  obtain ⟨base, led, inside, place⟩ := walks.of_append_name (isPlain_of_mem member)
  exact ⟨base, led, inside, place (unlinked base led name member)⟩

theorem placeOf_join {base : Disk.Place} (opens : disk.Opens project.cacheDir base)
    (member : name ∈ [fileName, fileName ++ ".tmp"]) (direct : disk.Direct (project.cacheDir.join ⟨name⟩)) :
    Disk.placeOf (project.cacheDir.join ⟨name⟩) = base ++ [name] ∧
      ∀ target, disk.node? (base ++ [name]) ≠ some (.link target) := by
  have plain := isPlain_of_mem member
  rw [Disk.Direct, pathNames_cacheDir_join member] at direct
  have same : base = Disk.resolve [] (Disk.pathNames project.cacheDir.text) :=
    Disk.Walks.place_eq opens.1 ((Disk.clear_append _ _ _).mp direct).1
  have place : Disk.resolve [] (Disk.pathNames project.cacheDir.text ++ [name]) = base ++ [name] := by
    rw [Disk.resolve_append, ← same, Disk.resolve_plain _ (by simpa using plain)]
  refine ⟨by rw [Disk.placeOf, pathNames_cacheDir_join member, place], fun target => ?_⟩
  rw [← place]
  exact direct.last plain target

theorem fromUTF8?_toUTF8 (text : String) : String.fromUTF8? text.toUTF8 = some text := by
  rw [String.fromUTF8?, dif_pos]
  rfl

theorem readText_of_read {path : Path} {text : String} (read : disk.read path = .ok text.toUTF8) :
    disk.readText path = .ok text := by
  simp only [Disk.readText, read, bind, Except.bind, fromUTF8?_toUTF8]

theorem Unlinked.of_keepsWays {base : Disk.Place} (unlinked : Unlinked project disk)
    (ways : disk.KeepsWays after) (links : ∀ place target, after.node? place = some (.link target) →
      disk.node? place = some (.link target)) (opens : disk.Opens project.cacheDir base) :
    Unlinked project after := by
  intro other leads name member target stands
  cases leads.unique (opens.of_keepsWays ways).1
  exact unlinked base opens.1 name member target (links _ target stands)

/-- Moving a file over a place where neither a directory nor a link stands leaves all ways. -/
theorem keepsWays_move {source target : Disk.Place} {node : Disk.Node}
    (stands : disk.node? source = some node) (file : node.IsFile)
    (vacant : ∀ old, disk.node? target = some old → old.IsFile) :
    disk.KeepsWays ((disk.erase source).put target node) := by
  intro place old found notFile
  have notSource : place ≠ source := by
    rintro rfl
    rw [stands] at found
    cases found
    exact notFile file
  have notTarget : place ≠ target := by
    rintro rfl
    exact notFile (vacant old found)
  rw [Disk.node?_put_of_ne notTarget, Disk.node?_erase_of_ne notSource, found]

/-- A cache is kept in three steps. -/
theorem save_eq_ok_iff : save disk project cache = (.ok (), after) ↔
    ∃ prepared written, disk.ensureParent (path project) = (.ok (), prepared) ∧
      prepared.writeText (temporaryPath project) cache.document = .ok written ∧
      written.rename (temporaryPath project) (path project) = .ok after := by
  unfold save
  generalize cache.document = text
  constructor
  · intro saved
    cases above : disk.ensureParent (path project) with
    | mk result prepared =>
        rw [above] at saved
        cases result with
        | error fault => cases saved
        | ok _ =>
            cases wrote : prepared.writeText (temporaryPath project) text with
            | error fault => simp [wrote] at saved
            | ok written =>
                cases renamed : written.rename (temporaryPath project) (path project) with
                | error fault => simp [wrote, renamed] at saved
                | ok last =>
                    simp only [wrote, renamed, Prod.mk.injEq, true_and] at saved
                    exact ⟨prepared, written, rfl, wrote, saved ▸ renamed⟩
  · rintro ⟨prepared, written, above, wrote, renamed⟩
    simp only [above, wrote, renamed]

/-- What keeping a cache does to a disk: the document stands in the cache directory, nothing stands where it
was written before it was moved, and no other place is changed. -/
theorem save_stored (unlinked : Unlinked project (disk.ensureParent (path project)).2)
    (saved : save disk project cache = (.ok (), after)) :
    ∃ base, (disk.ensureParent (path project)).2.Leads project.cacheDir base ∧
      Disk.KeepsWays (disk.ensureParent (path project)).2 after ∧
      (∀ place target, after.node? place = some (.link target) →
        (disk.ensureParent (path project)).2.node? place = some (.link target)) ∧
      (∀ place, place ≠ base ++ [fileName] → place ≠ base ++ [fileName ++ ".tmp"] →
        after.node? place = (disk.ensureParent (path project)).2.node? place) ∧
      after.node? (base ++ [fileName ++ ".tmp"]) = none ∧
      after.node? (base ++ [fileName]) = some (.file cache.document.toUTF8) ∧
      after.read (path project) = .ok cache.document.toUTF8 := by
  have pathMember : fileName ∈ [fileName, fileName ++ ".tmp"] := List.mem_cons_self
  have temporaryMember : fileName ++ ".tmp" ∈ [fileName, fileName ++ ".tmp"] :=
    List.mem_cons_of_mem _ List.mem_cons_self
  have pathNamed : Disk.Named (path project) := named_cacheDir_join pathMember
  have temporaryNamed : Disk.Named (temporaryPath project) := named_cacheDir_join temporaryMember
  obtain ⟨prepared, written, above, wrote, renamed⟩ := save_eq_ok_iff.mp saved
  rw [above] at unlinked ⊢
  generalize cache.document = text at wrote ⊢
  have keeps := Disk.keeps_write wrote
  obtain ⟨spot, _, walks, _, rfl⟩ := Disk.write_eq_ok wrote
  obtain ⟨base, led, inside, place⟩ := unlinked.place_eq temporaryMember walks
  rw [place] at keeps renamed
  have unlinkedAfter := unlinked.of_keepsWays keeps.ways keeps.links ⟨led, inside⟩
  have leads := (Disk.Opens.of_keepsWays keeps.ways ⟨led, inside⟩).1
  -- Neither the temporary name nor the final one is a link, so the rename moves the bytes just written from
  -- one name in the cache directory to the other.
  obtain ⟨source, node, target, sourceWalks, stands, targetWalks, notDirectory, rfl⟩ :=
    Disk.rename_eq_ok temporaryNamed pathNamed renamed
  obtain ⟨sourceBase, sourceLeads, _, rfl⟩ := unlinkedAfter.place_eq temporaryMember sourceWalks
  obtain ⟨targetBase, targetLeads, _, targetPlace⟩ := unlinkedAfter.place_eq pathMember targetWalks
  cases sourceLeads.unique leads
  cases targetLeads.unique leads
  rw [Disk.node?_put_self (by simp)] at stands
  cases stands
  have vacant : ∀ old, (prepared.put (base ++ [fileName ++ ".tmp"]) (.file text.toUTF8)).node? target.place =
      some old → old.IsFile := by
    intro old found
    cases old with
    | file content => exact ⟨content, rfl⟩
    | directory => exact absurd found notDirectory
    | link other =>
        rw [targetPlace] at found
        exact absurd found (unlinkedAfter base leads _ pathMember other)
  have moved := keepsWays_move (Disk.node?_put_self (by simp)) ⟨_, rfl⟩ vacant
  have stored : (((prepared.put (base ++ [fileName ++ ".tmp"]) (.file text.toUTF8)).erase
      (base ++ [fileName ++ ".tmp"])).put target.place (.file text.toUTF8)).node? target.place =
        some (.file text.toUTF8) :=
    Disk.node?_put_self (by simp [targetPlace])
  have read := Disk.read_eq_ok_iff.mpr ⟨pathNamed, _, targetWalks.of_keepsWays moved ⟨_, stored, nofun⟩, stored⟩
  refine ⟨base, led, keeps.ways.trans moved, ?_, ?_, ?_, targetPlace ▸ stored, read⟩
  · intro place target link
    rw [Disk.node?_put] at link
    split at link
    · cases link
    · split at link
      · cases link
      · exact keeps.links place target (Disk.links_erase link)
  · intro other notDocument notTemporary
    rw [targetPlace, Disk.node?_put_of_ne notDocument, Disk.node?_erase_of_ne notTemporary,
      Disk.node?_put_of_ne notTemporary]
  · rw [targetPlace, Disk.node?_put_of_ne (by simp), Disk.node?_erase_self (by simp)]

/-- What keeping a cache does to a disk: the document stands in the cache directory and reads as the
cache, and no other place but that of the new document is changed. -/
theorem save_eq_ok (unlinked : Unlinked project (disk.ensureParent (path project)).2)
    (saved : save disk project cache = (.ok (), after)) :
    ∃ base, (disk.ensureParent (path project)).2.Leads project.cacheDir base ∧
      Disk.KeepsWays (disk.ensureParent (path project)).2 after ∧
      (∀ place target, after.node? place = some (.link target) →
        (disk.ensureParent (path project)).2.node? place = some (.link target)) ∧
      (∀ place, place ≠ base ++ [fileName] → place ≠ base ++ [fileName ++ ".tmp"] →
        after.node? place = (disk.ensureParent (path project)).2.node? place) ∧
      load after project = cache.withoutEmpty := by
  obtain ⟨base, leads, ways, links, others, _, _, read⟩ := save_stored unlinked saved
  refine ⟨base, leads, ways, links, others, ?_⟩
  unfold load
  rw [readText_of_read read]
  simp only [ofDocument?_document, Option.getD_some]

theorem unlinked_of_direct {base : Disk.Place} (opens : disk.Opens project.cacheDir base)
    (direct : ∀ name ∈ [fileName, fileName ++ ".tmp"], disk.Direct (project.cacheDir.join ⟨name⟩)) :
    Unlinked project disk := by
  intro other leads name member target
  cases leads.unique opens.1
  exact (placeOf_join opens member (direct name member)).2 target

/-- What keeping a cache leaves on a disk on which the cache directory is open. -/
theorem save_leaves {base : Disk.Place} (opens : disk.Opens project.cacheDir base)
    (direct : ∀ name ∈ [fileName, fileName ++ ".tmp"], disk.Direct (project.cacheDir.join ⟨name⟩))
    (saved : save disk project cache = (.ok (), after)) :
    disk.Spares (fun place => place ≠ base ++ [fileName] ∧ place ≠ base ++ [fileName ++ ".tmp"]) after ∧
      (disk.ensureParent (path project)).2.KeepsWays after ∧
      after.node? (base ++ [fileName ++ ".tmp"]) = none ∧
      after.node? (base ++ [fileName]) = some (.file cache.document.toUTF8) ∧
      load after project = cache.withoutEmpty := by
  have grows := Disk.ensureParent_grows disk (path project)
  have opensReady := opens.of_keepsWays grows.keeps.ways
  have unlinked := unlinked_of_direct opensReady
    fun name member => (direct name member).of_links grows.keeps.links
  obtain ⟨other, leads, ways, links, others, vacant, stored, _⟩ := save_stored unlinked saved
  obtain ⟨also, alsoLeads, _, _, _, loaded⟩ := save_eq_ok unlinked saved
  cases leads.unique opensReady.1
  exact ⟨grows.spares.trans ⟨ways, links, fun place held => .inl (others place held.1 held.2)⟩, ways, vacant,
    stored, loaded⟩

end Cache

end TypedLiterals
