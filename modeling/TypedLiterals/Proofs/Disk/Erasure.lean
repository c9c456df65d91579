import Mathlib.Algebra.Order.BigOperators.Group.List
import Mathlib.Algebra.Order.Ring.Nat
import Mathlib.Data.List.Nodup
import TypedLiterals.Proofs.Disk.Removal

/-!
Trees that are taken away one after another.

A removal that succeeds takes away one tree, and what two of them leave does not depend on their order. A path
whose end and bytes survive each of two removals survives both: all that it passes still stands, and no byte
below its end is in either tree.
-/

namespace TypedLiterals.Disk

variable {disk after : Disk} {follow : Bool} {links : Nat} {path : Path}
  {place base other : Place} {name : String} {names rest : List String} {last : Place} {spot : Spot}

/-! ## Bytes -/

def Node.bytes : Node → Nat
  | .file content => content.size
  | .directory | .link _ => 0

/-- The number of bytes in the files at a place or below it. -/
def bytesBelow (disk : Disk) (place : Place) : Nat :=
  (disk.entries.map fun entry => if place <+: entry.1 then entry.2.bytes else 0).sum

theorem sum_filesBelow (disk : Disk) (place : Place) :
    ((disk.filesBelow place).map fun file => file.2.size).sum = disk.bytesBelow place := by
  unfold filesBelow bytesBelow
  induction disk.entries with
  | nil => rfl
  | cons entry rest ih =>
      obtain ⟨spot, node⟩ := entry
      rw [List.map_cons, List.sum_cons, ← ih]
      by_cases inside : place <+: spot
      · cases node <;> simp [inside, Node.bytes]
      · cases node <;> simp [inside]

theorem sizeOf_of_locate (located : disk.locate true path = .ok (.present place)) :
    disk.sizeOf path = disk.bytesBelow place := by
  rw [sizeOf, located]
  exact List.sum_eq_foldl.symm.trans (sum_filesBelow disk place)

theorem bytesBelow_filter (disk : Disk) (keep : Place → Bool) (place : Place) :
    (Disk.mk (disk.entries.filter fun entry => keep entry.1)).bytesBelow place =
      (disk.entries.map fun entry => if place <+: entry.1 ∧ keep entry.1 then entry.2.bytes else 0).sum := by
  unfold bytesBelow
  dsimp only
  induction disk.entries with
  | nil => rfl
  | cons entry rest ih =>
      by_cases kept : keep entry.1 = true
      · rw [List.filter_cons_of_pos (by exact kept), List.map_cons, List.sum_cons, List.map_cons, List.sum_cons, ih]
        simp only [kept, and_true]
      · rw [List.filter_cons_of_neg (by exact kept), List.map_cons, List.sum_cons, if_neg fun both => kept both.2,
          Nat.zero_add, ih]

theorem bytesBelow_eraseTree (disk : Disk) (base place : Place) :
    (disk.eraseTree base).bytesBelow place =
      (disk.entries.map fun entry =>
        if place <+: entry.1 ∧ ¬ base <+: entry.1 then entry.2.bytes else 0).sum := by
  rw [eraseTree, bytesBelow_filter disk fun spot => !base.isPrefixOf spot]
  simp [← List.isPrefixOf_iff_prefix]

theorem eraseTree_eraseTree (disk : Disk) (base other : Place) :
    (disk.eraseTree base).eraseTree other =
      ⟨disk.entries.filter fun entry => !base.isPrefixOf entry.1 && !other.isPrefixOf entry.1⟩ := by
  rw [eraseTree, eraseTree, List.filter_filter]
  simp only [Bool.and_comm]

theorem eraseTree_comm (disk : Disk) (base other : Place) :
    (disk.eraseTree base).eraseTree other = (disk.eraseTree other).eraseTree base := by
  rw [eraseTree_eraseTree, eraseTree_eraseTree]
  simp only [Bool.and_comm]

theorem bytesBelow_eraseTree_le (disk : Disk) (base place : Place) :
    (disk.eraseTree base).bytesBelow place ≤ disk.bytesBelow place := by
  rw [bytesBelow_eraseTree, bytesBelow]
  refine List.sum_le_sum fun entry _ => ?_
  split
  · next kept => rw [if_pos kept.1]
  · exact Nat.zero_le _

theorem bytesBelow_eraseTree_add (disk : Disk) (inside : place <+: base) :
    (disk.eraseTree base).bytesBelow place + disk.bytesBelow base = disk.bytesBelow place := by
  rw [bytesBelow_eraseTree, bytesBelow, bytesBelow, ← List.sum_map_add]
  refine congrArg List.sum (List.map_congr_left fun entry _ => ?_)
  by_cases under : base <+: entry.1
  · simp [under, inside.trans under]
  · simp [under]

theorem bytesBelow_eraseTree_of_apart (disk : Disk) (above : ¬ base <+: place) (below : ¬ place <+: base) :
    (disk.eraseTree base).bytesBelow place = disk.bytesBelow place := by
  rw [bytesBelow_eraseTree, bytesBelow]
  refine congrArg List.sum (List.map_congr_left fun entry _ => if_congr ?_ rfl rfl)
  refine and_iff_left_of_imp fun inside under => ?_
  exact (List.prefix_or_prefix_of_prefix inside under).elim below above

/-- Two trees together take no more bytes from a third one than each of them does. -/
theorem bytesBelow_eraseTree_add_le (disk : Disk) (base other place : Place) :
    (disk.eraseTree base).bytesBelow place + (disk.eraseTree other).bytesBelow place ≤
      disk.bytesBelow place + ((disk.eraseTree base).eraseTree other).bytesBelow place := by
  rw [eraseTree_eraseTree, bytesBelow_filter disk fun spot => !base.isPrefixOf spot && !other.isPrefixOf spot,
    bytesBelow_eraseTree, bytesBelow_eraseTree, bytesBelow, ← List.sum_map_add, ← List.sum_map_add]
  refine List.sum_le_sum fun entry _ => ?_
  simp only [← List.isPrefixOf_iff_prefix]
  generalize place.isPrefixOf entry.1 = inside, base.isPrefixOf entry.1 = under, other.isPrefixOf entry.1 = also
  cases inside <;> cases under <;> cases also <;> simp

/-! ## Removals -/

theorem Rooted.eraseTree (rooted : disk.Rooted) (base : Place) : (disk.eraseTree base).Rooted :=
  (cleared_eraseTree disk base).rooted rooted

theorem shrinks_eraseTree (disk : Disk) (base : Place) : Shrinks disk (disk.eraseTree base) :=
  (cleared_eraseTree disk base).shrinks

theorem node?_ne_none_of_mem {entry : Place × Node} (member : entry ∈ disk.entries) : disk.node? entry.1 ≠ none := by
  unfold node?
  split
  · simp
  · intro missing
    exact absurd (List.lookup_eq_none_iff.mp missing entry member) (by simp)

/-- Where nothing can stand below a place, erasing it erases its tree. -/
theorem erase_eq_eraseTree (rooted : disk.Rooted) (plain : disk.node? base ≠ some .directory) :
    disk.erase base = disk.eraseTree base := by
  unfold erase eraseTree
  refine congrArg Disk.mk (List.filter_congr fun entry member => ?_)
  by_cases under : base <+: entry.1
  · have same : entry.1 = base := by
      by_contra apart
      exact node?_ne_none_of_mem member (rooted.none_below plain under (Ne.symm apart))
    simp [same]
  · have apart : entry.1 ≠ base := fun same => under (same ▸ List.prefix_refl _)
    simp [apart, Bool.eq_false_iff.mpr fun found => under (List.isPrefixOf_iff_prefix.mp found)]

/-- A removal that succeeds takes away the tree at the place that its path names. -/
theorem removeAny_eq_ok (rooted : disk.Rooted) (removed : disk.removeAny path = (.ok (), after)) :
    ∃ base, disk.locate false path = .ok (.present base) ∧ after = disk.eraseTree base := by
  unfold removeAny at removed
  split at removed
  · unfold removeDirectoryTree at removed
    split at removed
    · cases removed
    · cases removed
    · next base located =>
      split at removed
      · cases removed
      · split at removed
        · cases removed
        · cases removed
          exact ⟨base, located, rfl⟩
  · split at removed
    · next left erased =>
      cases removed
      obtain ⟨base, named, walks, plain, rfl⟩ := removeFile_eq_ok erased
      exact ⟨base, locate_of_walks named walks, erase_eq_eraseTree rooted plain⟩
    · cases removed

/-! ## Walks -/

theorem node?_eraseTree_eraseTree {node : Node} (one : (disk.eraseTree base).node? place = some node)
    (two : (disk.eraseTree other).node? place = some node) :
    ((disk.eraseTree base).eraseTree other).node? place = some node := by
  by_cases root : place = []
  · rw [root, node?_root] at one ⊢
    exact one
  · have apart : ¬ other <+: place := by
      intro inside
      rw [cleared_eraseTree disk other place root, if_pos inside] at two
      cases two
    rw [cleared_eraseTree _ other place root, if_neg apart, one]

theorem walks_current : Walks disk follow links place ("." :: rest) spot ↔
    disk.node? place = some .directory ∧ Walks disk follow links place rest spot := by
  rw [← walk_eq_ok_iff, ← walk_eq_ok_iff, walk_eq, walkNames]
  by_cases inside : disk.node? place = some .directory
  · simp [inside]
  · simp [inside]

theorem walks_parent : Walks disk follow links place (".." :: rest) spot ↔
    disk.node? place = some .directory ∧ Walks disk follow links place.dropLast rest spot := by
  rw [← walk_eq_ok_iff, ← walk_eq_ok_iff, walk_eq, walkNames]
  by_cases inside : disk.node? place = some .directory
  · simp [inside]
  · simp [inside]

/-- A walk that each of two erasures leaves, both together leave. -/
theorem Walks.meet (one : Walks (disk.eraseTree base) follow links place names (.present last))
    (two : Walks (disk.eraseTree other) follow links place names (.present last)) :
    Walks ((disk.eraseTree base).eraseTree other) follow links place names (.present last) := by
  have same {place : Place} {node also : Node} (stands : (disk.eraseTree base).node? place = some node)
      (stood : (disk.eraseTree other).node? place = some also) : node = also :=
    Option.some.inj <| ((shrinks_eraseTree disk base).stood stands).symm.trans
      ((shrinks_eraseTree disk other).stood stood)
  generalize reached : Spot.present last = spot at one
  -- The induction is on one walk. The other one takes the same step, since what stands is the same.
  induction one with
  | stop => exact .stop
  | current inside _ ih =>
      obtain ⟨also, later⟩ := walks_current.mp two
      exact .current (node?_eraseTree_eraseTree inside also) (ih later reached)
  | parent inside _ ih =>
      obtain ⟨also, later⟩ := walks_parent.mp two
      exact .parent (node?_eraseTree_eraseTree inside also) (ih later reached)
  | absent => cases reached
  | down inside plain stands noLink _ ih =>
      cases two with
      | current => exact absurd rfl plain.1
      | parent => exact absurd rfl plain.2
      | down also _ stood _ later =>
          exact .down (node?_eraseTree_eraseTree inside also) plain
            (node?_eraseTree_eraseTree stands (same stands stood ▸ stood)) noLink (ih later reached)
      | link _ _ stood | lastLink _ _ stood => exact absurd (same stands stood) (noLink _)
  | link inside plain stands goesOn _ ih =>
      cases two with
      | current => exact absurd rfl plain.1
      | parent => exact absurd rfl plain.2
      | down _ _ stood noLink _ => exact absurd (same stands stood).symm (noLink _)
      | link also _ stood _ later =>
          cases same stands stood
          exact .link (node?_eraseTree_eraseTree inside also) plain (node?_eraseTree_eraseTree stands stood) goesOn
            (ih later reached)
      | lastLink _ _ _ unfollowed => exact absurd ⟨rfl, unfollowed⟩ goesOn
  | lastLink inside plain stands unfollowed =>
      cases two with
      | current => exact absurd rfl plain.1
      | parent => exact absurd rfl plain.2
      | down _ _ stood noLink _ => exact absurd (same stands stood).symm (noLink _)
      | link _ _ _ goesOn _ => exact absurd ⟨rfl, unfollowed⟩ goesOn
      | lastLink also _ stood _ =>
          cases reached
          exact .lastLink (node?_eraseTree_eraseTree inside also) plain
            (node?_eraseTree_eraseTree stands (same stands stood ▸ stood)) unfollowed

theorem Walks.followed (walks : Walks disk false links place names (.present last))
    (noLink : ∀ target, disk.node? last ≠ some (.link target)) :
    Walks disk true links place names (.present last) := by
  generalize reached : Spot.present last = spot at walks
  induction walks with
  | stop => exact .stop
  | current inside _ ih => exact .current inside (ih reached)
  | parent inside _ ih => exact .parent inside (ih reached)
  | absent => cases reached
  | down inside plain stands plainNode _ ih => exact .down inside plain stands plainNode (ih reached)
  | lastLink _ _ stands _ =>
      cases reached
      exact absurd stands (noLink _)
  | link inside plain stands _ _ ih => exact .link inside plain stands (by simp) (ih reached)

/-! ## Paths -/

theorem locate_unfollowed (located : disk.locate true path = .ok (.present place)) :
    ∃ base, disk.locate false path = .ok (.present base) := by
  obtain ⟨walks, nonempty, directory⟩ := locate_eq_ok located
  cases slash : endsInSlash path.text with
  | true => exact ⟨place, locate_of_walk nonempty (by simpa [slash] using walks) (directory place rfl)⟩
  | false =>
      obtain ⟨base, unfollowed⟩ := Walks.exists_unfollowed (by simpa [slash] using walks)
      exact ⟨base, locate_of_walk nonempty (by simpa [slash] using unfollowed) (by simp [slash])⟩

theorem locate_followed (located : disk.locate false path = .ok (.present base))
    (noLink : ∀ target, disk.node? base ≠ some (.link target)) :
    disk.locate true path = .ok (.present base) := by
  obtain ⟨walks, nonempty, directory⟩ := locate_eq_ok located
  refine locate_of_walk nonempty ?_ (directory base rfl)
  cases slash : endsInSlash path.text with
  | true => simpa [slash] using walks
  | false => exact Walks.followed (by simpa [slash] using walks) noLink

theorem locate_eraseTree_eraseTree (one : (disk.eraseTree base).locate follow path = .ok (.present place))
    (two : (disk.eraseTree other).locate follow path = .ok (.present place)) :
    ((disk.eraseTree base).eraseTree other).locate follow path = .ok (.present place) := by
  obtain ⟨walks, nonempty, directory⟩ := locate_eq_ok one
  obtain ⟨also, _, alsoDirectory⟩ := locate_eq_ok two
  exact locate_of_walk nonempty (walks.meet also) fun slash =>
    node?_eraseTree_eraseTree (directory place rfl slash) (alsoDirectory place rfl slash)

theorem exists_locate_of_eraseTree (exists_ : (disk.eraseTree base).pathExists path = true) :
    ∃ place node, (disk.eraseTree base).locate true path = .ok (.present place) ∧
      disk.locate true path = .ok (.present place) ∧ (disk.eraseTree base).node? place = some node ∧
      disk.node? place = some node := by
  obtain ⟨place, node, located, stands⟩ := pathExists_iff.mp exists_
  have shrinks := shrinks_eraseTree disk base
  exact ⟨place, node, located, locate_of_shrinks shrinks located, stands, shrinks.stood stands⟩

theorem pathExists_of_eraseTree (exists_ : (disk.eraseTree base).pathExists path = true) :
    disk.pathExists path = true := by
  obtain ⟨place, node, _, located, _, stands⟩ := exists_locate_of_eraseTree exists_
  exact pathExists_iff.mpr ⟨place, node, located, stands⟩

theorem sizeOf_eraseTree_le (exists_ : (disk.eraseTree base).pathExists path = true) :
    (disk.eraseTree base).sizeOf path ≤ disk.sizeOf path := by
  obtain ⟨place, _, now, before, _⟩ := exists_locate_of_eraseTree exists_
  rw [sizeOf_of_locate now, sizeOf_of_locate before]
  exact bytesBelow_eraseTree_le disk base place

/-- Whether a path still exists, and leads to as many bytes, when a tree is taken away. -/
def Intact (disk : Disk) (base : Place) (path : Path) : Prop :=
  (disk.eraseTree base).pathExists path = true ∧ (disk.eraseTree base).sizeOf path = disk.sizeOf path

theorem Intact.meet (one : disk.Intact base path) (two : disk.Intact other path) :
    (disk.eraseTree base).Intact other path := by
  obtain ⟨place, node, now, before, stands, stood⟩ := exists_locate_of_eraseTree one.1
  obtain ⟨spot, kind, also, known, remains, _⟩ := exists_locate_of_eraseTree two.1
  cases before.symm.trans known
  cases stood.symm.trans ((shrinks_eraseTree disk other).stood remains)
  have joint := locate_eraseTree_eraseTree now also
  refine ⟨pathExists_iff.mpr ⟨place, node, joint, node?_eraseTree_eraseTree stands remains⟩, ?_⟩
  have first := one.2
  have second := two.2
  rw [sizeOf_of_locate now, sizeOf_of_locate before] at first
  rw [sizeOf_of_locate also, sizeOf_of_locate before] at second
  rw [sizeOf_of_locate joint, sizeOf_of_locate now]
  have least := bytesBelow_eraseTree_add_le disk base other place
  have most := bytesBelow_eraseTree_le (disk.eraseTree base) other place
  omega

theorem Intact.of_eraseTree (one : disk.Intact base path) (joint : (disk.eraseTree base).Intact other path) :
    disk.Intact other path := by
  obtain ⟨exists_, size⟩ := joint
  rw [eraseTree_comm] at exists_ size
  have survives := pathExists_of_eraseTree exists_
  refine ⟨survives, Nat.le_antisymm (sizeOf_eraseTree_le survives) ?_⟩
  rw [← one.2, ← size]
  exact sizeOf_eraseTree_le exists_

/-- What stands on the way of a path that exists. -/
theorem Direct.stands_of_way (direct : disk.Direct path) (exists_ : disk.pathExists path = true)
    (member : place ∈ way (pathNames path.text)) : ∃ node, disk.node? place = some node := by
  obtain ⟨end_, node, located, stands⟩ := pathExists_iff.mp exists_
  obtain ⟨walks, _⟩ := locate_eq_ok located
  obtain ⟨front, ⟨back, split⟩, rfl⟩ := mem_way.mp member
  rw [Direct, ← split, clear_append] at direct
  rw [← split] at walks
  cases back with
  | nil =>
      rw [List.append_nil] at walks
      have ends := walks.place_eq direct.1
      exact ⟨node, ends ▸ stands⟩
  | cons name rest =>
      obtain ⟨spot, left, led, goesOn⟩ := walks.of_append (List.cons_ne_nil _ _)
      have ends := led.place_eq direct.1
      exact ⟨.directory, ends ▸ goesOn.inside⟩

/-- A path that passes no link is left alone by the tree at a place exactly when it does not pass the place and,
where it leads above it, no byte is in the tree. -/
theorem intact_iff (direct : disk.Direct path) (exists_ : disk.pathExists path = true) :
    disk.Intact base path ↔
      (∀ passed ∈ way (pathNames path.text), passed ≠ [] → ¬ base <+: passed) ∧
        (placeOf path <+: base → disk.bytesBelow base = 0) := by
  obtain ⟨place, node, located, stands⟩ := pathExists_iff.mp exists_
  have ends : place = placeOf path := direct.place_eq (locate_eq_ok located).1
  have shrinks := shrinks_eraseTree disk base
  constructor
  · intro intact
    refine ⟨fun passed member below under => ?_, fun above => ?_⟩
    · obtain ⟨found, remains⟩ := (direct.of_shrinks shrinks).stands_of_way intact.1 member
      rw [cleared_eraseTree disk base passed below, if_pos under] at remains
      cases remains
    · obtain ⟨_, _, now, before, _⟩ := exists_locate_of_eraseTree intact.1
      have size := intact.2
      rw [sizeOf_of_locate now, sizeOf_of_locate before] at size
      cases located.symm.trans before
      have split := bytesBelow_eraseTree_add disk (ends ▸ above)
      omega
  · rintro ⟨apart, void⟩
    have survives : (disk.eraseTree base).pathExists path = true := by
      rw [← exists_, pathExists, pathExists, direct.status_congr fun passed member => ?_]
      by_cases root : passed = []
      · rw [root, node?_root, node?_root]
      · rw [cleared_eraseTree disk base passed root, if_neg (apart passed member root)]
    refine ⟨survives, ?_⟩
    obtain ⟨_, _, now, before, _⟩ := exists_locate_of_eraseTree survives
    rw [sizeOf_of_locate now, sizeOf_of_locate before]
    cases located.symm.trans before
    by_cases above : place <+: base
    · have split := bytesBelow_eraseTree_add disk above
      have none_ := void (ends ▸ above)
      omega
    · have beside : ¬ base <+: place := by
        rw [ends]
        exact apart _ (resolve_mem_way _) fun root => above (by rw [ends, root]; exact List.nil_prefix)
      exact bytesBelow_eraseTree_of_apart disk beside above

/-! ## Links -/

/-- Whether a path names a link. -/
def EndsInLink (disk : Disk) (path : Path) : Prop :=
  ∃ base target, disk.locate false path = .ok (.present base) ∧ disk.node? base = some (.link target)

theorem EndsInLink.of_shrinks (shrinks : Shrinks disk after) (link : after.EndsInLink path) : disk.EndsInLink path := by
  obtain ⟨base, target, located, stands⟩ := link
  exact ⟨base, target, locate_of_shrinks shrinks located, shrinks.stood stands⟩

theorem EndsInLink.of_exists (link : disk.EndsInLink path) (exists_ : (disk.eraseTree base).pathExists path = true) :
    (disk.eraseTree base).EndsInLink path := by
  obtain ⟨spot, target, located, stands⟩ := link
  obtain ⟨place, node, now, _, remains, stood⟩ := exists_locate_of_eraseTree exists_
  obtain ⟨other, also⟩ := locate_unfollowed now
  cases located.symm.trans (locate_of_shrinks (shrinks_eraseTree disk base) also)
  by_contra noLink
  have followed := locate_followed also fun target link => noLink ⟨spot, target, also, link⟩
  cases now.symm.trans followed
  cases stands.symm.trans stood
  exact noLink ⟨spot, target, also, remains⟩

theorem Direct.not_endsInLink (direct : disk.Direct path) : ¬ disk.EndsInLink path := by
  rintro ⟨base, target, located, stands⟩
  have ends : base = placeOf path := direct.place_eq (locate_eq_ok located).1
  rw [ends] at stands
  exact direct.not_link_of_way (resolve_mem_way _) target stands

/-- Whether no place is listed twice. -/
def Once (disk : Disk) : Prop :=
  (disk.entries.map Prod.fst).Nodup

instance (disk : Disk) : Decidable disk.Once :=
  inferInstanceAs (Decidable (disk.entries.map Prod.fst).Nodup)

theorem Once.eraseTree (once : disk.Once) (base : Place) : (disk.eraseTree base).Once :=
  once.sublist (List.filter_sublist.map _)

/-- A link has no bytes, and nothing stands below it. -/
theorem bytesBelow_link (rooted : disk.Rooted) (once : disk.Once) {target : String}
    (link : disk.node? base = some (.link target)) : disk.bytesBelow base = 0 := by
  have plain : disk.node? base ≠ some .directory := by simp [link]
  have listed : (base, Node.link target) ∈ disk.entries := by
    unfold node? at link
    split at link
    · cases link
    · obtain ⟨front, back, split, _⟩ := List.lookup_eq_some_iff.mp link
      rw [split]
      exact List.mem_append_right _ List.mem_cons_self
  refine List.sum_eq_zero fun bytes member => ?_
  obtain ⟨entry, found, rfl⟩ := List.mem_map.mp member
  split
  · next under =>
    have same : base = entry.1 := by
      by_contra apart
      exact node?_ne_none_of_mem found (rooted.none_below plain under apart)
    rw [← List.inj_on_of_nodup_map once listed found same, Node.bytes]
  · rfl

theorem bytesBelow_removed (located : disk.locate false path = .ok (.present base)) (plain : ¬ disk.EndsInLink path) :
    (disk.eraseTree base).bytesBelow [] + disk.sizeOf path = disk.bytesBelow [] := by
  have followed := locate_followed located fun target link => plain ⟨base, target, located, link⟩
  rw [sizeOf_of_locate followed, bytesBelow_eraseTree_add disk List.nil_prefix]

theorem bytesBelow_removed_link (rooted : disk.Rooted) (once : disk.Once)
    (located : disk.locate false path = .ok (.present base)) (link : disk.EndsInLink path) :
    (disk.eraseTree base).bytesBelow [] = disk.bytesBelow [] := by
  obtain ⟨spot, target, also, stands⟩ := link
  cases located.symm.trans also
  rw [← bytesBelow_eraseTree_add disk (List.nil_prefix : [] <+: base), bytesBelow_link rooted once stands, Nat.add_zero]

theorem bytesBelow_le_removed (rooted : disk.Rooted) (once : disk.Once)
    (located : disk.locate false path = .ok (.present base)) :
    disk.bytesBelow [] ≤ (disk.eraseTree base).bytesBelow [] + disk.sizeOf path := by
  by_cases link : disk.EndsInLink path
  · rw [bytesBelow_removed_link rooted once located link]
    exact Nat.le_add_right _ _
  · exact (bytesBelow_removed located link).ge

/-- What is taken away at a path is what it leads to, unless it is a link to bytes. -/
theorem bytesBelow_removed_iff (rooted : disk.Rooted) (once : disk.Once)
    (located : disk.locate false path = .ok (.present base)) :
    (disk.eraseTree base).bytesBelow [] + disk.sizeOf path = disk.bytesBelow [] ↔
      (disk.EndsInLink path → disk.sizeOf path = 0) := by
  by_cases link : disk.EndsInLink path
  · rw [bytesBelow_removed_link rooted once located link, Nat.add_eq_left]
    exact ⟨fun size _ => size, fun size => size link⟩
  · exact iff_of_true (bytesBelow_removed located link) fun ends => absurd ends link

end TypedLiterals.Disk
