import TypedLiterals.Proofs.Disk.Ways

/-!
Taking away trees.

On a disk where everything stands in a directory, removing what a path names takes away the tree below one
place and leaves the rest. Nothing comes up where something was taken away, so a path that leads somewhere
afterwards led there before.
-/

namespace TypedLiterals.Disk

variable {before middle after disk : Disk} {follow : Bool} {links : Nat} {path : Path}
  {place base front : Place} {names : List String} {node : Node}

/-! ## Trees -/

/-- Whether everything stands in a directory. -/
def Rooted (disk : Disk) : Prop :=
  ∀ place name node, disk.node? (place ++ [name]) = some node → disk.node? place = some .directory

theorem Rooted.above (rooted : disk.Rooted) (stands : disk.node? place = some node) (inside : front <+: place) :
    front = place ∨ disk.node? front = some .directory := by
  induction place using List.reverseRecOn generalizing node with
  | nil => exact .inl (List.prefix_nil.mp inside)
  | append_singleton before name ih =>
      rcases List.prefix_concat_iff.mp inside with rfl | inside
      · exact .inl rfl
      · have directory := rooted _ _ _ stands
        rcases ih directory inside with rfl | above
        · exact .inr directory
        · exact .inr above

theorem Rooted.none_below (rooted : disk.Rooted) (other : disk.node? base ≠ some .directory)
    (inside : base <+: place) (apart : base ≠ place) : disk.node? place = none := by
  cases stands : disk.node? place with
  | none => rfl
  | some node => exact absurd ((rooted.above stands inside).resolve_left apart) other

/-- Everything stands in a directory when the directory of each entry is one. -/
theorem rooted_of_entries
    (listed : (disk.entries.all fun entry => decide (disk.node? entry.1.dropLast = some .directory)) = true) :
    disk.Rooted := by
  intro place name node stands
  rw [node?, if_neg (by simp)] at stands
  obtain ⟨front, back, split, _⟩ := List.lookup_eq_some_iff.mp stands
  have inside := List.all_eq_true.mp listed (place ++ [name], node) (by rw [split]; simp)
  rwa [decide_eq_true_iff, List.dropLast_concat] at inside

/-! ## What is taken away -/

/-- Whether nothing is made or replaced. -/
def Shrinks (before after : Disk) : Prop :=
  ∀ place, after.node? place = before.node? place ∨ after.node? place = none

theorem Shrinks.refl (disk : Disk) : Shrinks disk disk :=
  fun _ => .inl rfl

theorem Shrinks.trans (first : Shrinks before middle) (second : Shrinks middle after) : Shrinks before after := by
  intro place
  rcases second place with same | gone
  · rw [same]
    exact first place
  · exact .inr gone

theorem Shrinks.stood (shrinks : Shrinks before after) (stands : after.node? place = some node) :
    before.node? place = some node := by
  rcases shrinks place with same | gone
  · rw [← same, stands]
  · rw [gone] at stands
    cases stands

/-- What names lead to after something was taken away they led to before. -/
theorem Walks.of_shrinks (shrinks : Shrinks before after)
    (walks : Walks after follow links place names (.present base)) :
    Walks before follow links place names (.present base) := by
  generalize reached : Spot.present base = spot at walks
  induction walks with
  | stop =>
      cases reached
      exact .stop
  | current inside _ ih => exact .current (shrinks.stood inside) (ih reached)
  | parent inside _ ih => exact .parent (shrinks.stood inside) (ih reached)
  | absent _ _ _ => cases reached
  | down inside plain stands noLink _ ih =>
      exact .down (shrinks.stood inside) plain (shrinks.stood stands) noLink (ih reached)
  | lastLink inside plain stands last =>
      cases reached
      exact .lastLink (shrinks.stood inside) plain (shrinks.stood stands) last
  | link inside plain stands goesOn _ ih =>
      exact .link (shrinks.stood inside) plain (shrinks.stood stands) goesOn (ih reached)

theorem locate_of_walk (nonempty : path.text.isEmpty = false)
    (walks : Walks disk (follow || endsInSlash path.text) linkLimit [] (pathNames path.text) (.present place))
    (directory : endsInSlash path.text = true → disk.node? place = some .directory) :
    disk.locate follow path = .ok (.present place) := by
  simp only [locate, nonempty, walks.walk, bind, Except.bind, Bool.false_eq_true, if_false]
  cases slash : endsInSlash path.text with
  | false => simp
  | true => simp [directory slash]

theorem locate_of_shrinks (shrinks : Shrinks before after) (located : after.locate follow path = .ok (.present place)) :
    before.locate follow path = .ok (.present place) := by
  obtain ⟨walks, nonempty, directory⟩ := locate_eq_ok located
  exact locate_of_walk nonempty (walks.of_shrinks shrinks) fun slash =>
    shrinks.stood (directory place rfl slash)

theorem Direct.of_shrinks (shrinks : Shrinks before after) (direct : before.Direct path) : after.Direct path :=
  direct.of_links fun _ _ stands => shrinks.stood stands

/-! ## Trees that are removed -/

theorem lookup_filter_places (entries : List (Place × Node)) (keep : Place → Bool) (place : Place) :
    (entries.filter fun entry => keep entry.1).lookup place =
      if keep place then entries.lookup place else none := by
  induction entries with
  | nil => simp
  | cons entry rest ih =>
      obtain ⟨first, node⟩ := entry
      rw [lookup_cons]
      by_cases kept : keep first = true
      · rw [List.filter_cons_of_pos (by simpa using kept), lookup_cons, ih]
        by_cases found : place = first
        · rw [if_pos found, if_pos found, found, if_pos kept]
        · rw [if_neg found, if_neg found]
      · rw [List.filter_cons_of_neg (by simpa using kept), ih]
        by_cases found : place = first
        · rw [found, if_neg kept, if_neg kept]
        · rw [if_neg found]

/-- Whether a disk is another one without what stands at a place or below it. The root stays. -/
def Cleared (before after : Disk) (base : Place) : Prop :=
  ∀ place, place ≠ [] → after.node? place = if base <+: place then none else before.node? place

theorem cleared_eraseTree (disk : Disk) (base : Place) : Cleared disk (disk.eraseTree base) base := by
  intro place below
  rw [eraseTree, node?, if_neg below, lookup_filter_places disk.entries (fun place => !base.isPrefixOf place),
    node?, if_neg below]
  by_cases inside : base <+: place
  · rw [if_pos inside, if_neg]
    simpa using inside
  · rw [if_neg inside, if_pos]
    rw [Bool.not_eq_true', ← Bool.not_eq_true]
    exact fun found => inside (List.isPrefixOf_iff_prefix.mp found)

theorem Cleared.shrinks (cleared : Cleared before after base) : Shrinks before after := by
  intro place
  by_cases root : place = []
  · exact .inl (by rw [root, node?_root, node?_root])
  · rw [cleared place root]
    split
    · exact .inr rfl
    · exact .inl rfl

theorem Cleared.rooted (cleared : Cleared before after base) (rooted : before.Rooted) : after.Rooted := by
  intro place name node stands
  by_cases root : place = []
  · rw [root, node?_root]
  · have apart : ¬ base <+: place := by
      intro inside
      rw [cleared _ (by simp), if_pos (inside.trans (List.prefix_append _ _))] at stands
      cases stands
    rw [cleared place root, if_neg apart]
    exact rooted _ _ _ (cleared.shrinks.stood stands)

theorem cleared_erase (rooted : disk.Rooted) (other : disk.node? base ≠ some .directory) :
    Cleared disk (disk.erase base) base := by
  intro place below
  rw [node?_erase, if_neg below]
  by_cases same : place = base
  · rw [if_pos same, same, if_pos (List.prefix_refl _)]
  · rw [if_neg same]
    by_cases inside : base <+: place
    · rw [if_pos inside, rooted.none_below other inside (Ne.symm same)]
    · rw [if_neg inside]

/-- Whether a disk is another one on which a directory was emptied. -/
def Emptied (before after : Disk) (base : Place) : Prop :=
  ∀ place, after.node? place = if base <+: place ∧ base ≠ place then none else before.node? place

theorem Emptied.shrinks (emptied : Emptied before after base) : Shrinks before after := by
  intro place
  rw [emptied place]
  split
  · exact .inr rfl
  · exact .inl rfl

theorem emptied_eraseTree (directory : disk.node? base = some .directory) :
    Emptied disk ((disk.eraseTree base).put base .directory) base := by
  intro place
  rw [node?_put]
  split
  · next root =>
    rw [root, if_neg, node?_root]
    rintro ⟨inside, apart⟩
    exact apart (List.prefix_nil.mp inside)
  · next below =>
    split
    · next same => rw [same, if_neg (fun both => both.2 rfl), directory]
    · next apart =>
      rw [cleared_eraseTree disk base place below]
      simp only [ne_eq, Ne.symm apart, not_false_eq_true, and_true]

/-- The last step of a path, when it is no name. -/
theorem directory_of_lastName (rooted : disk.Rooted)
    (walks : Walks disk follow links [] names (.present base))
    (last : names.getLast? = some "." ∨ names.getLast? = some "..") : disk.node? base = some .directory := by
  rcases last with dot | dots
  · obtain ⟨front, rfl⟩ := List.getLast?_eq_some_iff.mp dot
    obtain ⟨place, left, _, rest⟩ := walks.of_append (List.cons_ne_nil _ _)
    have inside := rest.inside
    have stays : resolve place ["."] = place := by rw [resolve, if_pos rfl, resolve]
    rw [← rest.place_eq (by rw [Clear, if_pos rfl, Clear]; trivial), Spot.place] at stays
    rw [stays, inside]
  · obtain ⟨front, rfl⟩ := List.getLast?_eq_some_iff.mp dots
    obtain ⟨place, left, _, rest⟩ := walks.of_append (List.cons_ne_nil _ _)
    have inside := rest.inside
    have up : resolve place [".."] = place.dropLast := by
      rw [resolve, if_neg (by decide), if_pos rfl, resolve]
    rw [← rest.place_eq (by rw [Clear, if_neg (by decide), if_pos rfl, Clear]; trivial), Spot.place] at up
    rw [up]
    rcases rooted.above inside (List.dropLast_prefix place) with same | directory
    · rw [same, inside]
    · exact directory

/-- Removing clears the place that a path names. It fails without a change, or with a directory that was only
emptied. -/
theorem removeAny_cases (rooted : disk.Rooted) (path : Path) :
    (∃ fault, disk.removeAny path = (.error fault, disk)) ∨
    ∃ base after, disk.locate false path = .ok (.present base) ∧
      (disk.removeAny path = (.ok (), after) ∧ Cleared disk after base ∨
        (∃ fault, disk.removeAny path = (.error fault, after)) ∧ Emptied disk after base) := by
  unfold removeAny
  split
  · unfold removeDirectoryTree
    cases located : disk.locate false path with
    | error fault => exact .inl ⟨fault, rfl⟩
    | ok spot =>
        cases spot with
        | absent directory name => exact .inl ⟨.notFound, rfl⟩
        | present base =>
            right
            have known : ∀ name, lastName path = name → name ≠ "" →
                (pathNames path.text).getLast? = some name := by
              rintro name rfl present
              unfold lastName at present ⊢
              cases last : (pathNames path.text).getLast? with
              | none => simp [last] at present
              | some name => rfl
            have walks := (locate_eq_ok located).1
            dsimp only
            split
            · next dot =>
              have directory := directory_of_lastName rooted walks (.inl (known _ dot (by decide)))
              exact ⟨base, _, rfl, .inr ⟨⟨_, rfl⟩, emptied_eraseTree directory⟩⟩
            · split
              · next dots =>
                have directory := directory_of_lastName rooted walks (.inr (known _ dots (by decide)))
                exact ⟨base, _, rfl, .inr ⟨⟨_, rfl⟩, emptied_eraseTree directory⟩⟩
              · exact ⟨base, _, rfl, .inl ⟨rfl, cleared_eraseTree disk base⟩⟩
  · cases removed : disk.removeFile path with
    | error fault => exact .inl ⟨fault, rfl⟩
    | ok after =>
        obtain ⟨base, named, walks, other, rfl⟩ := removeFile_eq_ok removed
        exact .inr ⟨base, _, locate_of_walks named walks, .inl ⟨rfl, cleared_erase rooted other⟩⟩

/-! ## Paths that exist -/

theorem pathExists_iff :
    disk.pathExists path = true ↔
      ∃ place node, disk.locate true path = .ok (.present place) ∧ disk.node? place = some node := by
  cases located : disk.locate true path with
  | error fault => simp [pathExists, status, located, bind, Except.bind, Except.isOk, Except.toBool]
  | ok spot =>
      cases spot with
      | absent directory name => simp [pathExists, status, located, bind, Except.bind, Except.isOk, Except.toBool]
      | present place =>
          cases stands : disk.node? place with
          | none => simp [pathExists, status, located, stands, bind, Except.bind, Except.isOk, Except.toBool]
          | some node => simp [pathExists, status, located, stands, bind, Except.bind, Except.isOk, Except.toBool]

theorem prefix_resolve (level : ".." ∉ names) (place : Place) : place <+: resolve place names := by
  induction names generalizing place with
  | nil => rw [resolve]
  | cons name rest ih =>
      have later := ih fun member => level (List.mem_cons_of_mem _ member)
      rw [resolve]
      split
      · exact later place
      · rw [if_neg fun same => level (by simp [same])]
        exact (List.prefix_append _ _).trans (later _)

theorem prefix_placeOf (level : ".." ∉ pathNames path.text) (passed : place ∈ way (pathNames path.text)) :
    place <+: placeOf path := by
  obtain ⟨front, ⟨back, split⟩, rfl⟩ := mem_way.mp passed
  rw [placeOf, ← split, resolve_append]
  exact prefix_resolve (fun member => level (by rw [← split]; exact List.mem_append_right _ member)) _

/-- Whether all that a path passes, besides what is above its place, is a directory. -/
def Passes (disk : Disk) (path : Path) : Prop :=
  ∀ place ∈ way (pathNames path.text), place <+: placeOf path ∨ disk.node? place = some .directory

theorem Passes.of_level (level : ".." ∉ pathNames path.text) : disk.Passes path :=
  fun _ member => .inl (prefix_placeOf level member)

theorem pathExists_of_below (rooted : disk.Rooted) (nonempty : path.text.isEmpty = false) (passes : disk.Passes path)
    (stands : disk.node? place = some node) (inside : placeOf path <+: place) (apart : placeOf path ≠ place) :
    disk.pathExists path = true := by
  have directory := (rooted.above stands inside).resolve_left apart
  have paved : Paved disk (pathNames path.text) := by
    intro passed member
    rcases passes passed member with higher | here
    · rcases rooted.above directory higher with rfl | above
      · exact directory
      · exact above
    · exact here
  exact pathExists_iff.mpr ⟨_, _, locate_of_walk nonempty paved.walks fun _ => directory, directory⟩

end TypedLiterals.Disk
