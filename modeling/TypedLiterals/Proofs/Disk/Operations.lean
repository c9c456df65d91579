import TypedLiterals.Disk.Operations
import TypedLiterals.Proofs.Disk.Walk

/-!
What operations do to a disk.

An operation that succeeds makes one change at the place that its path leads to. Making sure of
directories only adds directories, and writing only adds files or gives them another content.
-/

namespace TypedLiterals.Disk

variable {before middle after disk : Disk} {follow : Bool} {path : Path} {place other : Place}
  {spot : Spot} {content : ByteArray}

/-- A path that could be that of a file. -/
def Named (path : Path) : Prop :=
  path.text.isEmpty = false ∧ endsInSlash path.text = false

/-- Where a path leads when something stands there. -/
def Leads (disk : Disk) (path : Path) (place : Place) : Prop :=
  Walks disk true linkLimit [] (pathNames path.text) (.present place)

/-! ## Places of paths -/

theorem locate_eq_ok (located : disk.locate follow path = .ok spot) :
    Walks disk (follow || endsInSlash path.text) linkLimit [] (pathNames path.text) spot ∧
      path.text.isEmpty = false ∧
      ∀ place, spot = .present place → endsInSlash path.text = true →
        disk.node? place = some .directory := by
  unfold locate at located
  split at located
  · contradiction
  next nonempty =>
    cases walked : disk.walk (follow || endsInSlash path.text) linkLimit [] (pathNames path.text) with
    | error fault => simp [walked, bind, Except.bind] at located
    | ok found =>
        have walks := walk_eq_ok_iff.mp walked
        cases found with
        | absent directory name =>
            simp only [walked, bind, Except.bind, Except.ok.injEq] at located
            subst located
            exact ⟨walks, by simpa using nonempty, nofun⟩
        | present place =>
            simp only [walked, bind, Except.bind] at located
            split at located
            · contradiction
            next directory =>
              cases located
              refine ⟨walks, by simpa using nonempty, ?_⟩
              rintro _ ⟨rfl⟩ slash
              simpa [slash] using directory

theorem locate_of_walks (named : Named path)
    (walks : Walks disk follow linkLimit [] (pathNames path.text) spot) :
    disk.locate follow path = .ok spot := by
  simp only [locate, named.1, named.2, Bool.or_false, Bool.false_eq_true, if_false, walks.walk, bind,
    Except.bind, Bool.false_and]
  cases spot <;> rfl

theorem Walks.vacant {links : Nat} {names : List String} {directory : Place} {name : String}
    (walks : Walks disk follow links place names (.absent directory name)) :
    disk.node? (directory ++ [name]) = none := by
  generalize reached : Spot.absent directory name = spot at walks
  induction walks with
  | stop => contradiction
  | current _ _ ih => exact ih reached
  | parent _ _ ih => exact ih reached
  | absent _ _ vacant =>
      cases reached
      exact vacant
  | down _ _ _ _ _ ih => exact ih reached
  | lastLink _ _ _ _ => contradiction
  | link _ _ _ _ _ ih => exact ih reached

/-! ## Reading -/

theorem read_eq_ok_iff :
    disk.read path = .ok content ↔
      Named path ∧ ∃ place, Leads disk path place ∧ disk.node? place = some (.file content) := by
  constructor
  · intro read
    cases located : disk.locate true path with
    | error fault => simp [Disk.read, status, located, bind, Except.bind] at read
    | ok spot =>
        obtain ⟨walks, nonempty, directory⟩ := locate_eq_ok located
        cases spot with
        | absent _ _ => simp [Disk.read, status, located, bind, Except.bind] at read
        | present place =>
            cases stands : disk.node? place with
            | none => simp [Disk.read, status, located, bind, Except.bind, stands] at read
            | some node =>
                cases node with
                | directory => simp [Disk.read, status, located, bind, Except.bind, stands] at read
                | link _ => simp [Disk.read, status, located, bind, Except.bind, stands] at read
                | file found =>
                    simp only [Disk.read, status, located, bind, Except.bind, stands, Option.elim,
                      Except.ok.injEq] at read
                    subst read
                    rw [Bool.true_or] at walks
                    refine ⟨⟨nonempty, ?_⟩, place, walks, stands⟩
                    rw [← Bool.not_eq_true]
                    intro slash
                    rw [directory place rfl slash] at stands
                    cases stands
  · rintro ⟨named, place, leads, stands⟩
    simp [Disk.read, status, locate_of_walks named leads, bind, Except.bind, stands]

theorem isFile_iff :
    disk.isFile path = true ↔
      Named path ∧ ∃ place, Leads disk path place ∧ ∃ node, disk.node? place = some node ∧ node.IsFile := by
  have known : disk.isFile path = true ↔ ∃ content, disk.read path = .ok content := by
    cases found : disk.status path with
    | error fault => simp [isFile, Disk.read, found, bind, Except.bind]
    | ok node => cases node <;> simp [isFile, Disk.read, found, bind, Except.bind]
  rw [known]
  constructor
  · rintro ⟨content, read⟩
    obtain ⟨named, place, leads, stands⟩ := read_eq_ok_iff.mp read
    exact ⟨named, place, leads, _, stands, content, rfl⟩
  · rintro ⟨named, place, leads, node, stands, content, rfl⟩
    exact ⟨content, read_eq_ok_iff.mpr ⟨named, place, leads, stands⟩⟩

theorem Leads.unique (leads : Leads disk path place) (also : Leads disk path other) : place = other := by
  cases Walks.unique leads also
  rfl

theorem Leads.of_keepsWays (ways : KeepsWays before after) (leads : Leads before path place)
    (settled : Settled after place) : Leads after path place :=
  Walks.of_keepsWays ways leads settled

theorem Keeps.isFile (keeps : Keeps before after) (file : before.isFile path = true) :
    after.isFile path = true := by
  rw [isFile_iff] at file ⊢
  obtain ⟨named, place, leads, node, stands, isFile⟩ := file
  obtain ⟨next, standsNext, isFileNext⟩ := keeps.files place node stands isFile
  refine ⟨named, place, leads.of_keepsWays keeps.ways ⟨next, standsNext, ?_⟩, next, standsNext, isFileNext⟩
  rintro target rfl
  exact isFile_link target isFileNext

/-! ## Writing -/

theorem write_eq_ok (written : disk.write path content = .ok after) :
    ∃ spot, Named path ∧ Walks disk true linkLimit [] (pathNames path.text) spot ∧
      (∀ node, disk.node? spot.place = some node → node.IsFile) ∧
      after = disk.put spot.place (.file content) := by
  cases located : disk.locate true path with
  | error fault => simp [write, located, bind, Except.bind] at written
  | ok spot =>
      obtain ⟨walks, nonempty, _⟩ := locate_eq_ok located
      rw [Bool.true_or] at walks
      simp only [write, located, bind, Except.bind] at written
      split at written
      · contradiction
      next noSlash =>
        have named : Named path := ⟨nonempty, by simpa using noSlash⟩
        cases spot with
        | absent directory name =>
            cases written
            refine ⟨_, named, walks, fun node stands => ?_, rfl⟩
            rw [Spot.place, walks.vacant] at stands
            cases stands
        | present place =>
            simp only at written
            split at written
            · next old stands =>
                cases written
                refine ⟨_, named, walks, fun node also => ?_, rfl⟩
                rw [Spot.place, stands] at also
                cases also
                exact ⟨old, rfl⟩
            · contradiction

theorem keeps_write (written : disk.write path content = .ok after) : Keeps disk after := by
  obtain ⟨spot, _, _, vacant, rfl⟩ := write_eq_ok written
  exact keeps_put (fun old stands => ⟨vacant old stands, content, rfl⟩) nofun

theorem isFile_of_write (written : disk.write path content = .ok after) : after.isFile path = true := by
  have keeps := keeps_write written
  obtain ⟨spot, named, walks, vacant, rfl⟩ := write_eq_ok written
  have below : spot.place ≠ [] := by
    intro root
    obtain ⟨_, same⟩ := vacant .directory (by rw [root, node?_root])
    cases same
  have stands : (disk.put spot.place (.file content)).node? spot.place = some (.file content) :=
    node?_put_self below
  exact isFile_iff.mpr ⟨named, spot.place, walks.of_keepsWays keeps.ways ⟨_, stands, nofun⟩, _, stands,
    content, rfl⟩

/-! ## Directories -/

/-- Only directories are added, where nothing stood. -/
def Grows (before after : Disk) : Prop :=
  ∀ place, after.node? place = before.node? place ∨
    before.node? place = none ∧ after.node? place = some .directory

theorem Grows.refl (disk : Disk) : Grows disk disk :=
  fun _ => .inl rfl

theorem Grows.kept {node : Node} (grows : Grows before after) (stands : before.node? place = some node) :
    after.node? place = some node := by
  rcases grows place with same | ⟨vacant, _⟩
  · rw [same, stands]
  · rw [vacant] at stands
    cases stands

theorem Grows.trans (first : Grows before middle) (second : Grows middle after) : Grows before after := by
  intro place
  rcases first place with same | ⟨vacant, made⟩
  · rw [← same]
    exact second place
  · exact .inr ⟨vacant, second.kept made⟩

theorem Grows.keeps (grows : Grows before after) : Keeps before after where
  ways := fun _ _ stands _ => grows.kept stands
  files := fun _ node stands file => ⟨node, grows.kept stands, file⟩
  links := by
    intro place target link
    rcases grows place with same | ⟨_, made⟩
    · rw [← same, link]
    · rw [made] at link
      cases link

/-- Where a path leads when a directory stands there. -/
def Opens (disk : Disk) (path : Path) (place : Place) : Prop :=
  Leads disk path place ∧ disk.node? place = some .directory

theorem Opens.of_keepsWays (ways : KeepsWays before after) (opens : Opens before path place) :
    Opens after path place := by
  have stands := ways place _ opens.2 isFile_directory
  exact ⟨opens.1.of_keepsWays ways ⟨_, stands, nofun⟩, stands⟩

theorem createDirectory_eq_ok (made : disk.createDirectory path = .ok after) :
    Grows disk after ∧ ∃ place, Opens after path place := by
  cases located : disk.locate false path with
  | error fault => simp [createDirectory, located, bind, Except.bind] at made
  | ok spot =>
      obtain ⟨walks, _, _⟩ := locate_eq_ok located
      cases spot with
      | present place => simp [createDirectory, located, bind, Except.bind] at made
      | absent directory name =>
          simp only [createDirectory, located, bind, Except.bind, Except.ok.injEq] at made
          subst made
          have vacant := walks.vacant
          have below : directory ++ [name] ≠ [] := by simp
          have grows : Grows disk (disk.put (directory ++ [name]) .directory) := by
            intro place
            by_cases same : place = directory ++ [name]
            · subst same
              exact .inr ⟨vacant, node?_put_self below⟩
            · exact .inl (node?_put_of_ne same)
          exact ⟨grows, directory ++ [name],
            walks.of_keepsWays grows.keeps.ways ⟨_, node?_put_self below, nofun⟩, node?_put_self below⟩

theorem opens_of_isDirectory (directory : disk.isDirectory path = true) :
    ∃ place, Opens disk path place := by
  unfold isDirectory at directory
  split at directory
  · next stands =>
      cases located : disk.locate true path with
      | error fault => simp [status, located, bind, Except.bind] at stands
      | ok spot =>
          obtain ⟨walks, _, _⟩ := locate_eq_ok located
          rw [Bool.true_or] at walks
          cases spot with
          | absent _ _ => simp [status, located, bind, Except.bind] at stands
          | present place =>
              refine ⟨place, walks, ?_⟩
              cases found : disk.node? place <;>
                simp_all [status, bind, Except.bind]
  · contradiction

theorem createOrFind_grows (disk : Disk) (path : Path) : Grows disk (disk.createOrFind path).2 := by
  unfold createOrFind
  cases made : disk.createDirectory path with
  | ok after => exact (createDirectory_eq_ok made).1
  | error fault =>
      simp only
      split
      · exact .refl disk
      · exact .refl disk

theorem createOrFind_opens (found : (disk.createOrFind path).1 = .ok ()) :
    ∃ place, Opens (disk.createOrFind path).2 path place := by
  unfold createOrFind at found ⊢
  cases made : disk.createDirectory path with
  | ok after => exact (createDirectory_eq_ok made).2
  | error fault =>
      simp only [made] at found ⊢
      split at found
      · next directory => simpa [directory] using opens_of_isDirectory directory
      · contradiction

theorem createDirectories_grows (count : Nat) (disk : Disk) (path : Path) :
    Grows disk (createDirectories count disk path).2 := by
  induction count generalizing disk path with
  | zero => exact .refl disk
  | succ count ih =>
      unfold createDirectories
      split
      · exact .refl disk
      · split
        · split
          · exact .refl disk
          · next parent _ =>
              have first := ih disk parent
              split
              · next made =>
                  rw [made] at first
                  exact first.trans (createOrFind_grows _ path)
              · exact first
        · exact createOrFind_grows disk path

theorem createDirectories_eq_createOrFind {count : Nat} (nonempty : path.text.isEmpty = false)
    (made : (createDirectories (count + 1) disk path).1 = .ok ()) :
    ∃ prepared : Disk, createDirectories (count + 1) disk path = prepared.createOrFind path := by
  rw [createDirectories, nonempty, if_neg Bool.false_ne_true] at made ⊢
  split at made
  · split at made
    · contradiction
    · next parent _ =>
        cases above : createDirectories count disk parent with
        | mk result prepared =>
            cases result with
            | error fault => simp [above] at made
            | ok _ => exact ⟨prepared, by simp [*]⟩
  · exact ⟨disk, rfl⟩

theorem createDirectories_opens {count : Nat} (made : (createDirectories count disk path).1 = .ok ()) :
    ∃ place, Opens (createDirectories count disk path).2 path place := by
  cases count with
  | zero => contradiction
  | succ count =>
      cases empty : path.text.isEmpty with
      | true =>
          have none : path.text = "" := by simpa using empty
          refine ⟨[], ?_, node?_root _⟩
          rw [Leads, none]
          exact .stop
      | false =>
          obtain ⟨prepared, same⟩ := createDirectories_eq_createOrFind empty made
          rw [same] at made ⊢
          exact createOrFind_opens made

theorem ensureDirectory_grows (disk : Disk) (path : Path) : Grows disk (disk.ensureDirectory path).2 :=
  createDirectories_grows _ disk path

theorem ensureDirectory_opens (made : (disk.ensureDirectory path).1 = .ok ()) :
    ∃ place, Opens (disk.ensureDirectory path).2 path place :=
  createDirectories_opens made

theorem ensureParent_grows (disk : Disk) (path : Path) : Grows disk (disk.ensureParent path).2 := by
  unfold ensureParent
  split
  · exact .refl disk
  · exact ensureDirectory_grows disk _

/-! ## Taking away -/

theorem removeFile_eq_ok (removed : disk.removeFile path = .ok after) :
    ∃ place, Named path ∧ Walks disk false linkLimit [] (pathNames path.text) (.present place) ∧
      disk.node? place ≠ some .directory ∧ after = disk.erase place := by
  cases located : disk.locate false path with
  | error fault => simp [removeFile, located, bind, Except.bind] at removed
  | ok spot =>
      obtain ⟨walks, nonempty, directory⟩ := locate_eq_ok located
      cases spot with
      | absent _ _ => simp [removeFile, located, bind, Except.bind] at removed
      | present place =>
          simp only [removeFile, located, bind, Except.bind] at removed
          split at removed
          · contradiction
          next other =>
            cases removed
            have noSlash : endsInSlash path.text = false := by
              rw [← Bool.not_eq_true]
              exact fun slash => other (directory place rfl slash)
            rw [noSlash] at walks
            exact ⟨place, ⟨nonempty, noSlash⟩, walks, other, rfl⟩

theorem removeFile_of_walks (named : Named path)
    (walks : Walks disk false linkLimit [] (pathNames path.text) (.present place))
    (other : disk.node? place ≠ some .directory) : disk.removeFile path = .ok (disk.erase place) := by
  simp only [removeFile, locate_of_walks named walks, bind, Except.bind, if_neg other]

theorem rename_eq_ok {source target : Path} (sourceNamed : Named source) (targetNamed : Named target)
    (renamed : disk.rename source target = .ok after) :
    ∃ place node spot, Walks disk false linkLimit [] (pathNames source.text) (.present place) ∧
      disk.node? place = some node ∧ Walks disk false linkLimit [] (pathNames target.text) spot ∧
      disk.node? spot.place ≠ some .directory ∧ after = (disk.erase place).put spot.place node := by
  cases located : disk.locate false source with
  | error fault => simp [rename, located, bind, Except.bind] at renamed
  | ok spot =>
      obtain ⟨walks, _, _⟩ := locate_eq_ok located
      rw [sourceNamed.2, Bool.false_or] at walks
      cases spot with
      | absent _ _ => simp [rename, located, bind, Except.bind] at renamed
      | present place =>
          cases stands : disk.node? place with
          | none => simp [rename, located, bind, Except.bind, stands] at renamed
          | some node =>
              cases targetLocated : disk.locate false target with
              | error fault =>
                  simp [rename, located, bind, Except.bind, stands, targetLocated] at renamed
              | ok spot =>
                  obtain ⟨targetWalks, _, _⟩ := locate_eq_ok targetLocated
                  rw [targetNamed.2, Bool.false_or] at targetWalks
                  simp only [rename, located, bind, Except.bind, stands, targetLocated] at renamed
                  cases spot with
                  | absent directory name =>
                      cases renamed
                      refine ⟨place, node, _, walks, stands, targetWalks, ?_, rfl⟩
                      rw [Spot.place, targetWalks.vacant]
                      exact (Option.some_ne_none _).symm
                  | present other =>
                      simp only at renamed
                      split at renamed
                      · contradiction
                      next notDirectory =>
                        cases renamed
                        exact ⟨place, node, _, walks, stands, targetWalks, notDirectory, rfl⟩

end TypedLiterals.Disk
