import TypedLiterals.Proofs.Disk.Frame

/-!
Operations that find done what they would do.

A directory that is open is not made again, and a file that has its content already is written without
any change to what stands on the disk.
-/

namespace TypedLiterals.Disk

variable {before middle after disk : Disk} {path : Path} {place base : Place} {spot : Spot}
  {content : ByteArray} {follow : Bool} {links : Nat} {front back names : List String} {name : String}

/-! ## Walks -/

/-- A walk goes on as the names that follow lead from where it ends. -/
theorem Walks.append (led : Walks disk true links place front (.present base)) (present : back ≠ [])
    (rest : ∀ left, Walks disk follow left base back spot) :
    Walks disk follow links place (front ++ back) spot := by
  generalize reached : Spot.present base = target at led
  induction led with
  | stop =>
      cases reached
      exact rest _
  | current inside _ ih => exact .current inside (ih reached)
  | parent inside _ ih => exact .parent inside (ih reached)
  | absent _ _ _ => cases reached
  | down inside plain stands noLink _ ih => exact .down inside plain stands noLink (ih reached)
  | lastLink _ _ _ unfollowed => cases unfollowed
  | link inside plain stands _ _ ih =>
      refine .link inside plain stands (by simp [present]) ?_
      rw [List.append_eq, ← List.append_assoc]
      exact ih reached

/-- What a walk reaches through a last link it also reaches, as a link, without following it. -/
theorem Walks.exists_unfollowed (walks : Walks disk true links place names (.present base)) :
    ∃ other, Walks disk false links place names (.present other) := by
  generalize reached : Spot.present base = target at walks
  induction walks with
  | stop => exact ⟨_, .stop⟩
  | current inside _ ih =>
      obtain ⟨other, rest⟩ := ih reached
      exact ⟨other, .current inside rest⟩
  | parent inside _ ih =>
      obtain ⟨other, rest⟩ := ih reached
      exact ⟨other, .parent inside rest⟩
  | absent _ _ _ => cases reached
  | down inside plain stands noLink _ ih =>
      obtain ⟨other, rest⟩ := ih reached
      exact ⟨other, .down inside plain stands noLink rest⟩
  | lastLink _ _ _ unfollowed => cases unfollowed
  | @link links place name target rest spot inside plain stands _ _ ih =>
      by_cases last : rest = []
      · subst last
        exact ⟨_, .lastLink inside plain stands rfl⟩
      · obtain ⟨other, later⟩ := ih reached
        exact ⟨other, .link inside plain stands (fun both => last both.1) later⟩

/-! ## Directories -/

theorem Opens.walks_absent {directory : Path} (opens : disk.Opens directory base)
    (names : pathNames path.text = pathNames directory.text ++ [name]) (plain : IsPlain name)
    (vacant : disk.node? (base ++ [name]) = none) :
    Walks disk follow linkLimit [] (pathNames path.text) (.absent base name) := by
  rw [names]
  exact Walks.append opens.1 (List.cons_ne_nil _ _) fun _ => .absent opens.2 plain vacant

theorem Opens.walks_file {directory : Path} (opens : disk.Opens directory base)
    (names : pathNames path.text = pathNames directory.text ++ [name]) (plain : IsPlain name)
    (stands : disk.node? (base ++ [name]) = some (.file content)) :
    Walks disk follow linkLimit [] (pathNames path.text) (.present (base ++ [name])) := by
  rw [names]
  exact Walks.append opens.1 (List.cons_ne_nil _ _) fun _ => .down opens.2 plain stands nofun .stop

theorem locate_of_opens (opens : disk.Opens path place) (nonempty : path.text.isEmpty = false) :
    disk.locate true path = .ok (.present place) := by
  have walks := Walks.walk opens.1
  simp [locate, nonempty, walks, opens.2, bind, Except.bind]

theorem isDirectory_of_opens (opens : disk.Opens path place) (nonempty : path.text.isEmpty = false) :
    disk.isDirectory path = true := by
  simp [isDirectory, status, locate_of_opens opens nonempty, opens.2, bind, Except.bind]

theorem createOrFind_of_opens (opens : disk.Opens path place) (nonempty : path.text.isEmpty = false) :
    disk.createDirectory path = .error .alreadyExists ∧ disk.createOrFind path = (.ok (), disk) := by
  have exists_ : disk.createDirectory path = .error .alreadyExists := by
    cases slash : endsInSlash path.text with
    | true =>
        have walks := Walks.walk opens.1
        simp [createDirectory, locate, nonempty, slash, walks, opens.2, bind, Except.bind]
    | false =>
        obtain ⟨other, unfollowed⟩ := Walks.exists_unfollowed opens.1
        simp [createDirectory, locate_of_walks ⟨nonempty, slash⟩ unfollowed, bind, Except.bind]
  refine ⟨exists_, ?_⟩
  simp [createOrFind, exists_, isDirectory_of_opens opens nonempty]

theorem ensureDirectory_of_opens (opens : disk.Opens path place) :
    disk.ensureDirectory path = (.ok (), disk) := by
  unfold ensureDirectory createDirectories
  cases empty : path.text.isEmpty with
  | true => rfl
  | false =>
      obtain ⟨found, same⟩ := createOrFind_of_opens opens empty
      simp [found, same]

theorem ensureDirectory_again (made : (before.ensureDirectory path).1 = .ok ())
    (ways : (before.ensureDirectory path).2.KeepsWays after) :
    after.ensureDirectory path = (.ok (), after) := by
  obtain ⟨_, opens⟩ := ensureDirectory_opens made
  exact ensureDirectory_of_opens (opens.of_keepsWays ways)

theorem ensureParent_again (made : before.ensureParent path = (.ok (), middle)) (ways : middle.KeepsWays after) :
    after.ensureParent path = (.ok (), after) := by
  unfold ensureParent at made ⊢
  cases above : path.parent? with
  | none => rfl
  | some parent =>
      rw [above] at made
      dsimp only at made ⊢
      cases first : before.ensureDirectory parent with
      | mk result prepared =>
          rw [first] at made
          cases result with
          | error fault => cases made
          | ok _ =>
              cases made
              rw [ensureDirectory_again (by rw [first]) (by rw [first]; exact ways)]
              rfl

/-! ## Files -/

/-- The same stands at every place. -/
def Same (before after : Disk) : Prop :=
  ∀ place, after.node? place = before.node? place

theorem Same.refl (disk : Disk) : Same disk disk :=
  fun _ => rfl

theorem Same.trans (first : Same before middle) (second : Same middle after) : Same before after :=
  fun place => (second place).trans (first place)

theorem Same.keepsWays (same : Same before after) : KeepsWays before after :=
  fun place _ stands _ => (same place).trans stands

theorem Same.read (same : Same before after) (read : before.read path = .ok content) :
    after.read path = .ok content := by
  obtain ⟨named, place, leads, stands⟩ := read_eq_ok_iff.mp read
  have kept := (same place).trans stands
  exact read_eq_ok_iff.mpr ⟨named, place, leads.of_keepsWays same.keepsWays ⟨_, kept, nofun⟩, kept⟩

theorem same_put {node : Node} (stands : disk.node? place = some node) (below : place ≠ []) :
    Same disk (disk.put place node) := by
  intro other
  by_cases same : other = place
  · rw [same, node?_put_self below, stands]
  · rw [node?_put_of_ne same]

/-- A file that has its content already is written without any change. -/
theorem write_again (read : disk.read path = .ok content) :
    ∃ after, disk.write path content = .ok after ∧ Same disk after := by
  obtain ⟨named, place, leads, stands⟩ := read_eq_ok_iff.mp read
  have below : place ≠ [] := by
    rintro rfl
    cases stands
  refine ⟨disk.put place (.file content), ?_, same_put stands below⟩
  simp [write, locate_of_walks named leads, named.2, stands, bind, Except.bind]

theorem rename_of_walks {source target : Path} {place other : Place} {node : Node}
    (sourceNamed : Named source) (targetNamed : Named target)
    (sourceWalks : Walks disk false linkLimit [] (pathNames source.text) (.present place))
    (stands : disk.node? place = some node)
    (targetWalks : Walks disk false linkLimit [] (pathNames target.text) (.present other))
    (notDirectory : disk.node? other ≠ some .directory) :
    disk.rename source target = .ok ((disk.erase place).put other node) := by
  simp only [rename, locate_of_walks sourceNamed sourceWalks, locate_of_walks targetNamed targetWalks, stands,
    if_neg notDirectory, bind, Except.bind]

/-- A file is replaced by one with the same content, which is written beside it and moved. -/
theorem replace_again {directory source target : Path} {old : String} (opens : disk.Opens directory base)
    (sourceNamed : Named source) (sourceNames : pathNames source.text = pathNames directory.text ++ [name])
    (sourcePlain : IsPlain name) (vacant : disk.node? (base ++ [name]) = none)
    (targetNamed : Named target) (targetNames : pathNames target.text = pathNames directory.text ++ [old])
    (targetPlain : IsPlain old) (stored : disk.node? (base ++ [old]) = some (.file content)) :
    ∃ written after, disk.write source content = .ok written ∧ written.rename source target = .ok after ∧
      Same disk after := by
  have different : base ++ [old] ≠ base ++ [name] := by
    intro same
    rw [same, vacant] at stored
    cases stored
  have keeps : Keeps disk (disk.put (base ++ [name]) (.file content)) :=
    keeps_put (fun node stands => by rw [vacant] at stands; cases stands) nofun
  have opensWritten := opens.of_keepsWays keeps.ways
  have standsWritten : (disk.put (base ++ [name]) (.file content)).node? (base ++ [name]) =
      some (.file content) := node?_put_self (by simp)
  have storedWritten : (disk.put (base ++ [name]) (.file content)).node? (base ++ [old]) =
      some (.file content) := by
    rw [node?_put_of_ne different, stored]
  refine ⟨disk.put (base ++ [name]) (.file content), _, ?_,
    rename_of_walks sourceNamed targetNamed (opensWritten.walks_file sourceNames sourcePlain standsWritten)
      standsWritten (opensWritten.walks_file targetNames targetPlain storedWritten)
      (by rw [storedWritten]; exact nofun), fun place => ?_⟩
  · have absent : Walks disk true linkLimit [] (pathNames source.text) (.absent base name) :=
      opens.walks_absent sourceNames sourcePlain vacant
    simp [write, locate_of_walks sourceNamed absent, sourceNamed.2, bind, Except.bind]
  · by_cases target : place = base ++ [old]
    · rw [target, node?_put_self (by simp), stored]
    · rw [node?_put_of_ne target]
      by_cases source : place = base ++ [name]
      · rw [source, node?_erase_self (by simp), vacant]
      · rw [node?_erase_of_ne source, node?_put_of_ne source]

end TypedLiterals.Disk
