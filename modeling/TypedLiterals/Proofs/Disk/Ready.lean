import TypedLiterals.Proofs.Disk.Ways
import TypedLiterals.Proofs.Parent

/-!
Operations on ways that are passable.

Where nothing but directories stands in the way of a path, its directory can be made, and then a file can be
written, read, removed and moved there as the node at its place alone decides.
-/

namespace TypedLiterals.Disk

variable {disk after : Disk} {place : Place} {path : Path} {names front rest : List String} {name : String}
  {content : ByteArray}

/-! ## Directories -/

/-- Whether a disk is another one on which there is a directory at each place of a list. -/
def Adds (before after : Disk) (places : List Place) : Prop :=
  ∀ place, after.node? place = if place ∈ places then some .directory else before.node? place

theorem Adds.paved (adds : Adds disk after (way names)) : Paved after names :=
  fun place member => by rw [adds place, if_pos member]

theorem Adds.passable {places : List Place} (adds : Adds disk after places) (passable : Passable disk names) :
    Passable after names := by
  intro place member
  rw [adds place]
  split
  · exact .inr rfl
  · exact passable place member

theorem adds_of_paved (paved : Paved disk names) : Adds disk disk (way names) := by
  intro place
  split
  · next member => exact paved place member
  · rfl

theorem adds_put (paved : Paved disk front) (plain : IsPlain name) :
    Adds disk (disk.put (resolve [] front ++ [name]) .directory) (way (front ++ [name])) := by
  intro place
  have last : resolve [] (front ++ [name]) = resolve [] front ++ [name] := resolve_concat front plain
  split
  · next member =>
      by_cases same : place = resolve [] front ++ [name]
      · rw [same, node?_put_self (by simp)]
      · rw [node?_put_of_ne same]
        exact paved place ((mem_way_concat.mp member).resolve_right (last ▸ same))
  · next absent =>
      refine node?_put_of_ne ?_
      rintro rfl
      exact absent (mem_way_concat.mpr (.inr last.symm))

theorem isDirectory_of_paved (paved : Paved disk (pathNames path.text)) (nonempty : path.text.isEmpty = false) :
    disk.createDirectory path = .error .alreadyExists ∧ disk.createOrFind path = (.ok (), disk) :=
  createOrFind_of_opens ⟨paved.walks, paved _ (resolve_mem_way _)⟩ nonempty

theorem createDirectory_of_missing (nonempty : path.text.isEmpty = false)
    (names : pathNames path.text = front ++ name :: rest) (paved : Paved disk front) (plain : IsPlain name)
    (vacant : disk.node? (resolve [] front ++ [name]) = none) :
    disk.createDirectory path =
      if rest = [] then .ok (disk.put (resolve [] front ++ [name]) .directory) else .error .notFound := by
  simp only [createDirectory, locate, nonempty, names, paved.walk_missing plain vacant, Bool.false_eq_true,
    if_false]
  split <;> rfl

/-- The last name of a way is created, or all of it is found. -/
theorem createOrFind_adds (nonempty : path.text.isEmpty = false) (names : pathNames path.text = front ++ [name])
    (paved : Paved disk front) (passable : Passable disk (pathNames path.text)) :
    ∃ after, disk.createOrFind path = (.ok (), after) ∧ Adds disk after (way (pathNames path.text)) := by
  rcases passable.cases with found | ⟨first, missing, rest, split, pavedFirst, plain, vacant⟩
  · exact ⟨disk, (isDirectory_of_paved found nonempty).2, adds_of_paved found⟩
  · rcases List.eq_nil_or_concat rest with rfl | ⟨before, last, rfl⟩
    · have made := createDirectory_of_missing nonempty split pavedFirst plain vacant
      rw [if_pos rfl] at made
      refine ⟨_, by rw [createOrFind, made], ?_⟩
      rw [split]
      exact adds_put pavedFirst plain
    · -- What is missing cannot come before the last name.
      rw [names, List.concat_eq_append, ← List.cons_append, ← List.append_assoc] at split
      have inside : first ++ [missing] <+: front := by
        rw [(List.append_inj' split rfl).1]
        exact ⟨before, by simp⟩
      have stands := paved _ (way_subset inside (resolve_mem_way _))
      rw [resolve_concat first plain, vacant] at stands
      cases stands

theorem createDirectories_adds {count : Nat} (crisp : path.Crisp) (enough : path.components.length < count)
    (passable : Passable disk (pathNames path.text)) :
    ∃ after, createDirectories count disk path = (.ok (), after) ∧
      Adds disk after (way (pathNames path.text)) := by
  induction count generalizing path with
  | zero => contradiction
  | succ count ih =>
      cases empty : path.text.isEmpty with
      | true =>
          have none : path.text = "" := by simpa using empty
          refine ⟨disk, by rw [createDirectories, empty, if_pos rfl], adds_of_paved ?_⟩
          rw [none]
          intro place member
          obtain ⟨front, inside, rfl⟩ := mem_way.mp member
          rw [List.prefix_nil.mp inside, resolve, node?_root]
      | false =>
          rcases passable.cases with found | ⟨first, missing, rest, split, paved, plain, vacant⟩
          · obtain ⟨known, same⟩ := isDirectory_of_paved found empty
            exact ⟨disk, by simp [createDirectories, empty, known, same], adds_of_paved found⟩
          · have made := createDirectory_of_missing empty split paved plain vacant
            by_cases final : rest = []
            · subst final
              rw [if_pos rfl] at made
              refine ⟨_, by simp only [createDirectories, empty, made, createOrFind]; rfl, ?_⟩
              rw [split]
              exact adds_put paved plain
            · rw [if_neg final] at made
              obtain ⟨parent, dots, last, above, names, void, crispParent, longer⟩ :=
                crisp.exists_parent (by rw [split]; simp) plain.1
              have inside : pathNames parent.text <+: pathNames path.text := by
                rw [names, List.append_assoc]
                exact List.prefix_append _ _
              obtain ⟨prepared, ensured, adds⟩ := ih crispParent (by omega)
                fun place member => passable place (way_subset inside member)
              obtain ⟨after, found, addsLast⟩ := createOrFind_adds empty names
                (fun place member => adds.paved place ((way_append_dots void).mp member))
                (adds.passable passable)
              refine ⟨after, by simp [createDirectories, empty, made, above, ensured, found], fun place => ?_⟩
              rw [addsLast place, adds place]
              by_cases member : place ∈ way (pathNames parent.text)
              · simp [way_subset inside member]
              · simp [member]

/-! ## Places for files -/

/-- Whether a path ends in a name that a file can have. -/
structure Ends (path : Path) : Prop where
  named : Named path
  plain : ∃ front name, pathNames path.text = front ++ [name] ∧ IsPlain name

/-- The places above that of a path, as it leads through them. -/
def above (path : Path) : List Place :=
  way (pathNames path.text).dropLast

theorem mem_above_or_eq (member : place ∈ way (pathNames path.text)) :
    place ∈ above path ∨ place = placeOf path := by
  rcases List.eq_nil_or_concat (pathNames path.text) with none | ⟨front, name, names⟩
  · rw [above, none, List.dropLast_nil, ← none]
    exact .inl member
  · rw [names, List.concat_eq_append, mem_way_concat] at member
    rwa [above, placeOf, names, List.concat_eq_append, List.dropLast_concat]

theorem Ends.split (ends : Ends path) : ∃ front name, pathNames path.text = front ++ [name] ∧ IsPlain name ∧
    above path = way front ∧ placeOf path = resolve [] front ++ [name] := by
  obtain ⟨front, name, names, plain⟩ := ends.plain
  exact ⟨front, name, names, plain, by rw [above, names, List.dropLast_concat],
    by rw [placeOf, names, resolve_concat front plain]⟩

theorem Ends.place_ne_nil (ends : Ends path) : placeOf path ≠ [] := by
  obtain ⟨front, name, _, _, _, place⟩ := ends.split
  simp [place]

theorem ensureDirectory_adds (ends : Ends path)
    (passable : ∀ place ∈ above path, disk.node? place = none ∨ disk.node? place = some .directory) :
    ∃ parent after, path.parent? = some parent ∧ disk.ensureDirectory parent = (.ok (), after) ∧
      Adds disk after (above path) := by
  obtain ⟨front, name, names, plain, way, _⟩ := ends.split
  have crisp : path.Crisp := .inr (by simp [names, plain.1])
  obtain ⟨parent, dots, last, above, split, void, crispParent, _⟩ :=
    crisp.exists_parent (by rw [names]; simp) plain.1
  have same : front = pathNames parent.text ++ dots := (List.append_inj' (names.symm.trans split) rfl).1
  rw [way, same] at passable
  obtain ⟨after, made, adds⟩ := createDirectories_adds crispParent (Nat.lt_succ_self _)
    fun place member => passable place ((way_append_dots void).mpr member)
  refine ⟨parent, after, above, made, fun place => ?_⟩
  simp only [adds place, way, same, way_append_dots void]

theorem ensureParent_adds (ends : Ends path)
    (passable : ∀ place ∈ above path, disk.node? place = none ∨ disk.node? place = some .directory) :
    ∃ after, disk.ensureParent path = (.ok (), after) ∧ Adds disk after (above path) := by
  obtain ⟨parent, after, above, made, adds⟩ := ensureDirectory_adds ends passable
  exact ⟨after, by rw [ensureParent, above]; simp only [made]; rfl, adds⟩

/-- Whether a file can stand at a path: its directory is there, and no link takes its place. -/
structure Ready (disk : Disk) (path : Path) : Prop where
  ends : Ends path
  above : ∀ place ∈ above path, disk.node? place = some .directory
  noLink : ∀ target, disk.node? (placeOf path) ≠ some (.link target)

theorem Ready.locate (ready : Ready disk path) (follow : Bool) :
    (disk.node? (placeOf path) = none → ∃ directory name, directory ++ [name] = placeOf path ∧
      disk.locate follow path = .ok (.absent directory name)) ∧
    (∀ node, disk.node? (placeOf path) = some node → disk.locate follow path = .ok (.present (placeOf path))) := by
  obtain ⟨front, name, names, plain, way, place⟩ := ready.ends.split
  have paved : Paved disk front := fun place member => ready.above place (way ▸ member)
  have noLink := ready.noLink
  rw [place] at noLink ⊢
  constructor
  · intro vacant
    refine ⟨resolve [] front, name, rfl, locate_of_walks ready.ends.named ?_⟩
    rw [names, ← walk_eq_ok_iff, paved.walk_missing plain vacant, if_pos rfl]
  · intro node stands
    refine locate_of_walks ready.ends.named ?_
    rw [names]
    exact Walks.append paved.walks (by simp) fun _ => .down (paved _ (resolve_mem_way front)) plain stands
      (fun target same => noLink target (by rw [stands, same])) .stop

theorem Ready.write (ready : Ready disk path) (content : ByteArray) :
    disk.write path content =
      if disk.node? (placeOf path) = some .directory then .error .isDirectory
      else .ok (disk.put (placeOf path) (.file content)) := by
  obtain ⟨vacant, stands⟩ := ready.locate true
  have noSlash := ready.ends.named.2
  cases here : disk.node? (placeOf path) with
  | none =>
      obtain ⟨directory, name, same, located⟩ := vacant here
      simp [Disk.write, located, noSlash, same, bind, Except.bind]
  | some node =>
      cases node with
      | link target => exact absurd here (ready.noLink target)
      | file old => simp [Disk.write, stands _ here, noSlash, here, bind, Except.bind]
      | directory => simp [Disk.write, stands _ here, noSlash, here, bind, Except.bind]

theorem Ready.read (ready : Ready disk path) (stands : disk.node? (placeOf path) = some (.file content)) :
    disk.read path = .ok content := by
  simp [Disk.read, status, (ready.locate true).2 _ stands, stands, bind, Except.bind]

theorem Ready.removeFile (ready : Ready disk path) (stands : disk.node? (placeOf path) = some (.file content)) :
    disk.removeFile path = .ok (disk.erase (placeOf path)) := by
  simp [Disk.removeFile, (ready.locate false).2 _ stands, stands, bind, Except.bind]

theorem Ready.rename {target : Path} {node : Node} (ready : Ready disk path) (also : Ready disk target)
    (stands : disk.node? (placeOf path) = some node)
    (notDirectory : disk.node? (placeOf target) ≠ some .directory) :
    disk.rename path target = .ok ((disk.erase (placeOf path)).put (placeOf target) node) := by
  obtain ⟨vacant, present⟩ := also.locate false
  cases there : disk.node? (placeOf target) with
  | none =>
      obtain ⟨directory, name, same, located⟩ := vacant there
      simp [Disk.rename, (ready.locate false).2 _ stands, stands, located, same, bind, Except.bind]
  | some other =>
      rw [there] at notDirectory
      have different : other ≠ .directory := fun same => notDirectory (congrArg some same)
      simp [Disk.rename, (ready.locate false).2 _ stands, stands, present _ there, there, different, bind,
        Except.bind]

end TypedLiterals.Disk
