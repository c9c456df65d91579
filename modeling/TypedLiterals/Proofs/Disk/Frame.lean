import TypedLiterals.Proofs.Disk.Operations

/-!
What a change leaves alone.

Where no link stands on the way of a path, the path names one place whatever else is on the disk. Then
writing and removing only matter at the places of their paths, and all others are spared.
-/

namespace TypedLiterals.Disk

variable {before middle after disk : Disk} {Held Other : Place → Prop} {path : Path} {place : Place}
  {spot : Spot} {follow : Bool} {content : ByteArray}

/-- The place that a path names when no link stands on its way. -/
def placeOf (path : Path) : Place :=
  resolve [] (pathNames path.text)

/-- Whether no link stands on the way of a path. -/
def Direct (disk : Disk) (path : Path) : Prop :=
  Clear disk [] (pathNames path.text)

theorem Direct.of_links (links : ∀ place target, after.node? place = some (.link target) →
    before.node? place = some (.link target)) (direct : before.Direct path) : after.Direct path :=
  Clear.of_links links direct

theorem Direct.place_eq (direct : disk.Direct path)
    (walks : disk.Walks follow linkLimit [] (pathNames path.text) spot) : spot.place = placeOf path :=
  walks.place_eq direct

theorem Direct.leads_eq (direct : disk.Direct path) (leads : disk.Leads path place) :
    place = placeOf path :=
  direct.place_eq leads

theorem Direct.not_link (direct : disk.Direct path) (target : String) :
    disk.node? (placeOf path) ≠ some (.link target) := by
  refine Clear.not_link direct (fun front inside other => ?_) _ (List.prefix_refl _) target
  rw [List.prefix_nil.mp inside, node?_root]
  exact nofun

/-- A walk that meets no link is the same whether or not the last link is followed. -/
theorem Walks.unfollowed {links : Nat} {place : Place} {names : List String}
    (walks : Walks disk follow links place names spot) (clear : Clear disk place names) :
    Walks disk false links place names spot := by
  induction walks with
  | stop => exact .stop
  | current inside _ ih =>
      rw [Clear, if_pos rfl] at clear
      exact .current inside (ih clear)
  | parent inside _ ih =>
      rw [Clear, if_neg (by decide), if_pos rfl] at clear
      exact .parent inside (ih clear)
  | absent inside plain vacant => exact .absent inside plain vacant
  | down inside plain stands noLink _ ih =>
      rw [Clear, if_neg plain.1, if_neg plain.2] at clear
      exact .down inside plain stands noLink (ih clear.2)
  | lastLink _ plain stands _ =>
      rw [Clear, if_neg plain.1, if_neg plain.2] at clear
      exact absurd stands (clear.1 _)
  | link _ plain stands _ _ _ =>
      rw [Clear, if_neg plain.1, if_neg plain.2] at clear
      exact absurd stands (clear.1 _)

/-! ## Spared places -/

/-- Paths lead where they led, no link is made, and at the places held nothing happens but that a
directory is made where nothing stood. -/
structure Spares (Held : Place → Prop) (before after : Disk) : Prop where
  ways : KeepsWays before after
  links : ∀ place target, after.node? place = some (.link target) → before.node? place = some (.link target)
  held : ∀ place, Held place → after.node? place = before.node? place ∨
    before.node? place = none ∧ after.node? place = some .directory

theorem Spares.refl (disk : Disk) : Spares Held disk disk where
  ways := .refl disk
  links := fun _ _ link => link
  held := fun _ _ => .inl rfl

theorem Spares.trans (first : Spares Held before middle) (second : Spares Held middle after) :
    Spares Held before after where
  ways := first.ways.trans second.ways
  links := fun place target link => first.links place target (second.links place target link)
  held := by
    intro place held
    rcases second.held place held with same | ⟨vacant, made⟩
    · rw [same]
      exact first.held place held
    · rcases first.held place held with same | ⟨_, also⟩
      · exact .inr ⟨same.symm.trans vacant, made⟩
      · rw [vacant] at also
        cases also

theorem Spares.mono (fewer : ∀ place, Other place → Held place) (spares : Spares Held before after) :
    Spares Other before after :=
  ⟨spares.ways, spares.links, fun place other => spares.held place (fewer place other)⟩

theorem Grows.spares (grows : Grows before after) : Spares Held before after where
  ways := grows.keeps.ways
  links := grows.keeps.links
  held := fun place _ => grows place

theorem spares_write (direct : disk.Direct path) (apart : ¬ Held (placeOf path))
    (written : disk.write path content = .ok after) : Spares Held disk after := by
  have keeps := keeps_write written
  obtain ⟨spot, _, walks, _, rfl⟩ := write_eq_ok written
  refine ⟨keeps.ways, keeps.links, fun place held => .inl (node?_put_of_ne ?_)⟩
  rintro rfl
  exact apart (direct.place_eq walks ▸ held)

theorem spares_removeFile (direct : disk.Direct path) (apart : ¬ Held (placeOf path))
    (noLink : ∀ target, disk.node? (placeOf path) ≠ some (.link target))
    (removed : disk.removeFile path = .ok after) : Spares Held disk after := by
  obtain ⟨place, _, walks, notDirectory, rfl⟩ := removeFile_eq_ok removed
  have same : place = placeOf path := direct.place_eq walks
  have file : ∀ node, disk.node? place = some node → node.IsFile := by
    intro node stands
    cases node with
    | file content => exact ⟨content, rfl⟩
    | directory => exact absurd stands notDirectory
    | link target => exact absurd (same ▸ stands) (noLink target)
  refine ⟨keepsWays_erase file, fun _ _ => links_erase, fun other held => .inl (node?_erase_of_ne ?_)⟩
  rintro rfl
  exact apart (same ▸ held)

theorem Spares.read (spares : Spares Held before after) (direct : before.Direct path)
    (held : Held (placeOf path)) (read : before.read path = .ok content) :
    after.read path = .ok content := by
  obtain ⟨named, place, leads, stands⟩ := read_eq_ok_iff.mp read
  have same := direct.leads_eq leads
  have kept : after.node? place = some (.file content) := by
    rcases spares.held place (same ▸ held) with kept | ⟨vacant, _⟩
    · rw [kept, stands]
    · rw [stands] at vacant
      cases vacant
  exact read_eq_ok_iff.mpr ⟨named, place, leads.of_keepsWays spares.ways ⟨_, kept, nofun⟩, kept⟩

/-- Whether a place holds no file. -/
def Fileless (disk : Disk) (place : Place) : Prop :=
  ∀ content, disk.node? place ≠ some (.file content)

theorem Spares.fileless (spares : Spares Held before after) (held : Held place)
    (fileless : before.Fileless place) : after.Fileless place := by
  intro content stands
  rcases spares.held place held with same | ⟨_, made⟩
  · exact fileless content (same.symm.trans stands)
  · rw [made] at stands
    cases stands

theorem Fileless.read (fileless : disk.Fileless (placeOf path)) (direct : disk.Direct path) :
    disk.read path ≠ .ok content := by
  intro read
  obtain ⟨_, place, leads, stands⟩ := read_eq_ok_iff.mp read
  exact fileless content (direct.leads_eq leads ▸ stands)

end TypedLiterals.Disk
