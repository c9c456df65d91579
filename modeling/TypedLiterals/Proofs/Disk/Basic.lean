import TypedLiterals.Disk.Walk

/-!
What single changes do to a disk, and what it means for a disk to be kept by them.
-/

namespace TypedLiterals.Disk

variable {before middle after disk : Disk} {place other : Place} {node : Node}

theorem node?_root (disk : Disk) : disk.node? [] = some .directory := rfl

theorem lookup_cons (entries : List (Place × Node)) (place other : Place) (node : Node) :
    ((place, node) :: entries).lookup other =
      if other = place then some node else entries.lookup other := by
  by_cases same : other = place
  · simp [same]
  · simp [List.lookup_cons, same, beq_false_of_ne same]

theorem lookup_filter_ne (entries : List (Place × Node)) (place other : Place) :
    (entries.filter (·.1 ≠ place)).lookup other =
      if other = place then none else entries.lookup other := by
  induction entries with
  | nil => simp
  | cons entry rest ih =>
      obtain ⟨first, node⟩ := entry
      rw [lookup_cons]
      by_cases erased : first = place
      · rw [List.filter_cons_of_neg (by simpa using erased), ih, erased]
        split <;> rfl
      · rw [List.filter_cons_of_pos (by simpa using erased), lookup_cons, ih]
        by_cases found : other = first
        · have apart : other ≠ place := found ▸ erased
          rw [if_pos found, if_neg apart, if_pos found]
        · rw [if_neg found, if_neg found]

theorem node?_put :
    (disk.put place node).node? other =
      if other = [] then some .directory else if other = place then some node else disk.node? other := by
  by_cases root : other = []
  · rw [node?, if_pos root, if_pos root]
  · rw [node?, if_neg root, if_neg root, put, lookup_cons, lookup_filter_ne, node?, if_neg root]
    split <;> rfl

theorem node?_erase :
    (disk.erase place).node? other =
      if other = [] then some .directory else if other = place then none else disk.node? other := by
  by_cases root : other = []
  · rw [node?, if_pos root, if_pos root]
  · rw [node?, if_neg root, if_neg root, erase, lookup_filter_ne, node?, if_neg root]

theorem node?_put_of_ne (different : other ≠ place) :
    (disk.put place node).node? other = disk.node? other := by
  rw [node?_put, if_neg different]
  split
  · next root => rw [root, node?_root]
  · rfl

theorem node?_erase_of_ne (different : other ≠ place) :
    (disk.erase place).node? other = disk.node? other := by
  rw [node?_erase, if_neg different]
  split
  · next root => rw [root, node?_root]
  · rfl

theorem node?_put_self (below : place ≠ []) : (disk.put place node).node? place = some node := by
  rw [node?_put, if_neg below, if_pos rfl]

theorem node?_put_congr {disk other : Disk} {place spot : Place} {node : Node} (below : spot ≠ [])
    (same : other.node? place = disk.node? place) :
    (other.put spot node).node? place = (disk.put spot node).node? place := by
  by_cases here : place = spot
  · rw [here, node?_put_self below, node?_put_self below]
  · rw [node?_put_of_ne here, node?_put_of_ne here, same]

theorem node?_erase_self (below : place ≠ []) : (disk.erase place).node? place = none := by
  rw [node?_erase, if_neg below, if_pos rfl]

/-! ## Kept disks -/

def Node.IsFile (node : Node) : Prop :=
  ∃ content, node = .file content

/-- Directories and links stay as they are, so that paths lead where they led. -/
def KeepsWays (before after : Disk) : Prop :=
  ∀ place node, before.node? place = some node → ¬ node.IsFile → after.node? place = some node

/-- Nothing is taken away and no link is made. Files may get another content. -/
structure Keeps (before after : Disk) : Prop where
  ways : KeepsWays before after
  files : ∀ place node, before.node? place = some node → node.IsFile →
    ∃ next, after.node? place = some next ∧ next.IsFile
  links : ∀ place target, after.node? place = some (.link target) →
    before.node? place = some (.link target)

theorem KeepsWays.refl (disk : Disk) : KeepsWays disk disk :=
  fun _ _ stands _ => stands

theorem KeepsWays.trans (first : KeepsWays before middle) (second : KeepsWays middle after) :
    KeepsWays before after :=
  fun place node stands other => second place node (first place node stands other) other

theorem Keeps.refl (disk : Disk) : Keeps disk disk where
  ways := .refl disk
  files := fun _ node stands file => ⟨node, stands, file⟩
  links := fun _ _ stands => stands

theorem Keeps.trans (first : Keeps before middle) (second : Keeps middle after) : Keeps before after where
  ways := first.ways.trans second.ways
  files := by
    intro place node stands file
    obtain ⟨next, standsNext, fileNext⟩ := first.files place node stands file
    exact second.files place next standsNext fileNext
  links := fun place target link => first.links place target (second.links place target link)

/-- A change that puts something where nothing stood, or a file over a file. -/
theorem keeps_put (vacant : ∀ old, disk.node? place = some old → old.IsFile ∧ node.IsFile)
    (noLink : ∀ target, node ≠ .link target) : Keeps disk (disk.put place node) where
  ways := by
    intro other old stands notFile
    have different : other ≠ place := by
      rintro rfl
      exact notFile (vacant old stands).1
    rw [node?_put_of_ne different, stands]
  files := by
    intro other old stands file
    by_cases same : other = place
    · subst same
      have below : other ≠ [] := by
        rintro rfl
        cases stands
        obtain ⟨_, impossible⟩ := file
        cases impossible
      exact ⟨node, node?_put_self below, (vacant old stands).2⟩
    · exact ⟨old, by rw [node?_put_of_ne same, stands], file⟩
  links := by
    intro other target link
    rw [node?_put] at link
    split at link
    · cases link
    · split at link
      · cases link
        exact absurd rfl (noLink target)
      · exact link

theorem links_erase {target : String} (link : (disk.erase place).node? other = some (.link target)) :
    disk.node? other = some (.link target) := by
  rw [node?_erase] at link
  split at link
  · cases link
  · split at link
    · cases link
    · exact link

theorem keepsWays_erase (file : ∀ node, disk.node? place = some node → node.IsFile) :
    KeepsWays disk (disk.erase place) := by
  intro other node stands notFile
  have different : other ≠ place := by
    rintro rfl
    exact notFile (file node stands)
  rw [node?_erase_of_ne different, stands]

end TypedLiterals.Disk
