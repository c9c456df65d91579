import Mathlib.Data.List.Infix
import TypedLiterals.Proofs.Disk.Again

/-!
Ways that are paved.

The way of names is made of the places that one passes along them. Where no link is among them, what a path
leads to is decided by what stands at these places; it leads to its end when each holds a directory.
-/

namespace TypedLiterals.Disk

variable {disk : Disk} {follow : Bool} {links : Nat} {place : Place} {path : Path}
  {names front back rest : List String} {name : String}

/-! ## Ways -/

/-- The places that one passes along names from the root, the last one included. -/
def way (names : List String) : List Place :=
  names.inits.map (resolve [])

theorem mem_way : place ∈ way names ↔ ∃ front, front <+: names ∧ resolve [] front = place := by
  simp [way, List.mem_inits]

theorem way_subset (inside : front <+: names) : way front ⊆ way names := by
  intro place member
  obtain ⟨first, prefix_, same⟩ := mem_way.mp member
  exact mem_way.mpr ⟨first, prefix_.trans inside, same⟩

theorem resolve_mem_way (names : List String) : resolve [] names ∈ way names :=
  mem_way.mpr ⟨names, List.prefix_refl names, rfl⟩

theorem resolve_concat (front : List String) (plain : IsPlain name) :
    resolve place (front ++ [name]) = resolve place front ++ [name] := by
  rw [resolve_append, resolve, if_neg plain.1, if_neg plain.2, resolve]

theorem resolve_dots {dots : List String} (void : ∀ dot ∈ dots, dot = ".") (place : Place) :
    resolve place dots = place := by
  induction dots with
  | nil => rw [resolve]
  | cons dot rest ih =>
      rw [resolve, if_pos (void dot List.mem_cons_self), ih fun other member => void other
        (List.mem_cons_of_mem _ member)]

theorem mem_way_concat : place ∈ way (front ++ [name]) ↔ place ∈ way front ∨ place = resolve [] (front ++ [name]) := by
  rw [mem_way, mem_way]
  constructor
  · rintro ⟨first, inside, rfl⟩
    rcases List.prefix_concat_iff.mp inside with rfl | inside
    · exact .inr rfl
    · exact .inl ⟨first, inside, rfl⟩
  · rintro (⟨first, inside, rfl⟩ | rfl)
    · exact ⟨first, inside.trans (List.prefix_append _ _), rfl⟩
    · exact ⟨_, List.prefix_refl _, rfl⟩

theorem way_append_dots {dots : List String} (void : ∀ dot ∈ dots, dot = ".") :
    place ∈ way (front ++ dots) ↔ place ∈ way front := by
  induction dots using List.reverseRecOn with
  | nil => rw [List.append_nil]
  | append_singleton before dot ih =>
      have same : resolve [] (front ++ before ++ [dot]) = resolve [] (front ++ before) := by
        rw [resolve_append, resolve_dots fun other member => void other (by simp_all)]
      rw [← List.append_assoc, mem_way_concat, same, ih fun other member => void other
        (List.mem_append_left _ member)]
      refine ⟨fun either => either.elim id ?_, .inl⟩
      rintro rfl
      rw [resolve_append, resolve_dots fun other member => void other (List.mem_append_left _ member)]
      exact resolve_mem_way front

/-- Whether a directory stands at each place of the way of names. -/
def Paved (disk : Disk) (names : List String) : Prop :=
  ∀ place ∈ way names, disk.node? place = some .directory

/-- Whether a directory or nothing stands at each place of the way of names. -/
def Passable (disk : Disk) (names : List String) : Prop :=
  ∀ place ∈ way names, disk.node? place = none ∨ disk.node? place = some .directory

theorem Paved.of_prefix (paved : Paved disk names) (inside : front <+: names) : Paved disk front :=
  fun place member => paved place (way_subset inside member)

/-- What stands above a place that a paved way leads to is a directory too. -/
theorem Paved.above (paved : Paved disk names) :
    ∀ place, place <+: resolve [] names → disk.node? place = some .directory := by
  induction names using List.reverseRecOn with
  | nil =>
      intro place inside
      rw [resolve, List.prefix_nil] at inside
      rw [inside, node?_root]
  | append_singleton front name ih =>
      have before := ih (paved.of_prefix (List.prefix_append _ _))
      intro place inside
      by_cases current : name = "."
      · rw [resolve_append, resolve, if_pos current, resolve] at inside
        exact before place inside
      · by_cases parent : name = ".."
        · rw [resolve_append, resolve, if_neg current, if_pos parent, resolve] at inside
          exact before place (inside.trans (List.dropLast_prefix _))
        · rw [resolve_concat front ⟨current, parent⟩] at inside
          rcases List.prefix_concat_iff.mp inside with rfl | inside
          · rw [← resolve_concat front ⟨current, parent⟩]
            exact paved _ (resolve_mem_way _)
          · exact before place inside

/-- A passable way is paved, up to the first name that is missing if there is one. -/
theorem Passable.cases (passable : Passable disk names) :
    Paved disk names ∨ ∃ front name rest, names = front ++ name :: rest ∧ Paved disk front ∧ IsPlain name ∧
      disk.node? (resolve [] front ++ [name]) = none := by
  induction names using List.reverseRecOn with
  | nil =>
      refine .inl fun place member => ?_
      obtain ⟨front, inside, rfl⟩ := mem_way.mp member
      rw [List.prefix_nil.mp inside, resolve, node?_root]
  | append_singleton front name ih =>
      rcases ih fun place member => passable place (way_subset (List.prefix_append _ _) member) with
        paved | ⟨first, missing, rest, rfl, paved, plain, vacant⟩
      · have last : disk.node? (resolve [] (front ++ [name])) = some .directory → Paved disk (front ++ [name]) := by
          intro directory place member
          rcases mem_way_concat.mp member with before | rfl
          · exact paved place before
          · exact directory
        by_cases current : name = "."
        · refine .inl (last ?_)
          rw [resolve_append, resolve, if_pos current, resolve]
          exact paved _ (resolve_mem_way front)
        · by_cases parent : name = ".."
          · refine .inl (last ?_)
            rw [resolve_append, resolve, if_neg current, if_pos parent, resolve]
            exact paved.above _ (List.dropLast_prefix _)
          · rcases passable _ (resolve_mem_way _) with vacant | directory
            · rw [resolve_concat front ⟨current, parent⟩] at vacant
              exact .inr ⟨front, name, [], rfl, paved, ⟨current, parent⟩, vacant⟩
            · exact .inl (last directory)
      · exact .inr ⟨first, missing, rest ++ [name], by simp, paved, plain, vacant⟩

/-! ## Walks along ways -/

theorem walkNames_append (jump : Place → List String → Except Fault Spot)
    (paved : ∀ first, first <+: front → disk.node? (resolve place first) = some .directory) :
    walkNames disk follow jump place (front ++ back) =
      walkNames disk follow jump (resolve place front) back := by
  induction front generalizing place with
  | nil => rw [List.nil_append, resolve]
  | cons name rest ih =>
      have here : disk.node? place = some .directory := by
        have first := paved [] List.nil_prefix
        rwa [resolve] at first
      have further : ∀ first, first <+: rest →
          disk.node? (resolve place (name :: first)) = some .directory :=
        fun first inside => paved (name :: first) (List.cons_prefix_cons.mpr ⟨rfl, inside⟩)
      rw [List.cons_append, walkNames, if_neg (by simp [here]), resolve]
      split
      · next current =>
          exact ih fun first inside => by simpa [resolve, current] using further first inside
      · next notCurrent =>
          split
          · next parent =>
              exact ih fun first inside => by simpa [resolve, parent] using further first inside
          · next notParent =>
              have below : ∀ first, first <+: rest →
                  disk.node? (resolve (place ++ [name]) first) = some .directory := by
                intro first inside
                have next_ := further first inside
                rwa [resolve, if_neg notCurrent, if_neg notParent] at next_
              have stands : disk.node? (place ++ [name]) = some .directory := by
                have first := below [] List.nil_prefix
                rwa [resolve] at first
              rw [stands]
              exact ih below

theorem Paved.walk_append (paved : Paved disk front) (follow : Bool) (links : Nat) (back : List String) :
    disk.walk follow links [] (front ++ back) =
      walkNames disk follow (jump disk follow links) (resolve [] front) back := by
  rw [walk_eq]
  exact walkNames_append _ fun first inside => paved _ (mem_way.mpr ⟨first, inside, rfl⟩)

theorem Paved.walks (paved : Paved disk names) :
    Walks disk follow links [] names (.present (resolve [] names)) := by
  rw [← walk_eq_ok_iff, ← List.append_nil names, paved.walk_append, walkNames, List.append_nil]

theorem Paved.walk_missing (paved : Paved disk front) (plain : IsPlain name)
    (vacant : disk.node? (resolve [] front ++ [name]) = none) :
    disk.walk follow links [] (front ++ name :: rest) =
      if rest = [] then .ok (.absent (resolve [] front) name) else .error .notFound := by
  rw [paved.walk_append, walkNames, if_neg (by simp [paved _ (resolve_mem_way front)]), if_neg plain.1,
    if_neg plain.2, vacant]

theorem Direct.not_link_of_way (direct : disk.Direct path) (member : place ∈ way (pathNames path.text))
    (target : String) : disk.node? place ≠ some (.link target) := by
  obtain ⟨front, ⟨back, split⟩, rfl⟩ := mem_way.mp member
  rw [Direct, ← split, clear_append] at direct
  refine direct.1.not_link (fun first inside other => ?_) _ (List.prefix_refl _) target
  rw [List.prefix_nil.mp inside, node?_root]
  exact nofun

theorem clear_of_not_link (noLink : ∀ front, front <+: names → ∀ target,
    disk.node? (resolve place front) ≠ some (.link target)) : Clear disk place names := by
  induction names generalizing place with
  | nil => rw [Clear]; trivial
  | cons name rest ih =>
      have further : ∀ front, front <+: rest → ∀ target,
          disk.node? (resolve place (name :: front)) ≠ some (.link target) :=
        fun front inside => noLink (name :: front) (List.cons_prefix_cons.mpr ⟨rfl, inside⟩)
      rw [Clear]
      split
      · next current => exact ih fun front inside => by simpa [resolve, current] using further front inside
      · next notCurrent =>
          split
          · next parent => exact ih fun front inside => by simpa [resolve, parent] using further front inside
          · next notParent =>
              have below : ∀ front, front <+: rest → ∀ target,
                  disk.node? (resolve (place ++ [name]) front) ≠ some (.link target) := by
                intro front inside
                have next_ := further front inside
                rwa [resolve, if_neg notCurrent, if_neg notParent] at next_
              have here := below [] List.nil_prefix
              rw [resolve] at here
              exact ⟨here, ih below⟩

theorem direct_of_way (noLink : ∀ place ∈ way (pathNames path.text), ∀ target,
    disk.node? place ≠ some (.link target)) : disk.Direct path :=
  clear_of_not_link fun front inside => noLink _ (mem_way.mpr ⟨front, inside, rfl⟩)

theorem noLink_of_entries
    (plain : (disk.entries.all fun entry => match entry.2 with | .link _ => false | _ => true) = true)
    (place : Place) (target : String) : disk.node? place ≠ some (.link target) := by
  intro stands
  unfold node? at stands
  split at stands
  · cases stands
  · obtain ⟨front, back, split, _⟩ := List.lookup_eq_some_iff.mp stands
    have listed := List.all_eq_true.mp plain (place, .link target) (by rw [split]; simp)
    cases listed

theorem walkNames_congr {other : Disk} {jump alsoJump : Place → List String → Except Fault Spot}
    (clear : Clear disk place names)
    (same : ∀ front, front <+: names → other.node? (resolve place front) = disk.node? (resolve place front)) :
    walkNames other follow alsoJump place names = walkNames disk follow jump place names := by
  induction names generalizing place with
  | nil => rw [walkNames, walkNames]
  | cons name rest ih =>
      have here : other.node? place = disk.node? place := by
        have first := same [] List.nil_prefix
        rwa [resolve] at first
      have further : ∀ front, front <+: rest →
          other.node? (resolve place (name :: front)) = disk.node? (resolve place (name :: front)) :=
        fun front inside => same (name :: front) (List.cons_prefix_cons.mpr ⟨rfl, inside⟩)
      rw [Clear] at clear
      rw [walkNames, walkNames, here]
      split
      · rfl
      · split
        · next current =>
            rw [if_pos current] at clear
            exact ih clear fun front inside => by simpa [resolve, current] using further front inside
        · next notCurrent =>
            rw [if_neg notCurrent] at clear
            split
            · next parent =>
                rw [if_pos parent] at clear
                exact ih clear fun front inside => by simpa [resolve, parent] using further front inside
            · next notParent =>
                rw [if_neg notParent] at clear
                have below : ∀ front, front <+: rest →
                    other.node? (resolve (place ++ [name]) front) =
                      disk.node? (resolve (place ++ [name]) front) := by
                  intro front inside
                  have next_ := further front inside
                  rwa [resolve, if_neg notCurrent, if_neg notParent] at next_
                have stands := below [] List.nil_prefix
                rw [resolve] at stands
                rw [stands]
                cases found : disk.node? (place ++ [name]) with
                | none => rfl
                | some node =>
                    cases node with
                    | link target => exact absurd found (clear.1 target)
                    | file content => exact ih clear.2 below
                    | directory => exact ih clear.2 below

/-- What a path leads to depends on nothing but the nodes on its way when no link is among them. -/
theorem Direct.status_congr {other : Disk} (direct : disk.Direct path)
    (same : ∀ place ∈ way (pathNames path.text), other.node? place = disk.node? place) :
    other.status path = disk.status path := by
  have walked : other.walk true linkLimit [] (pathNames path.text) =
      disk.walk true linkLimit [] (pathNames path.text) := by
    rw [walk_eq, walk_eq]
    exact walkNames_congr direct fun front inside => same _ (mem_way.mpr ⟨front, inside, rfl⟩)
  by_cases empty : path.text = ""
  · simp [status, locate, empty, bind, Except.bind]
  · cases reached : disk.walk true linkLimit [] (pathNames path.text) with
    | error fault => simp [status, locate, walked, reached, empty, bind, Except.bind]
    | ok spot =>
        have ends := direct.place_eq (walk_eq_ok_iff.mp reached)
        have last := same _ (resolve_mem_way _)
        rw [← placeOf, ← ends] at last
        cases spot with
        | absent directory name => simp [status, locate, walked, reached, empty, bind, Except.bind]
        | present place =>
            rw [Spot.place] at last
            simp only [status, locate, walked, reached, last, Bool.true_or, bind, Except.bind]
            split
            · rfl
            · next found =>
                split at found
                · cases found
                · split at found
                  · cases found
                  · cases found
                    simp only [last]

/-- What is read at a path depends on nothing but the nodes on its way when no link is among them. -/
theorem Direct.read_congr {other : Disk} (direct : disk.Direct path)
    (same : ∀ place ∈ way (pathNames path.text), other.node? place = disk.node? place) :
    other.read path = disk.read path := by
  rw [Disk.read, Disk.read, direct.status_congr same]

end TypedLiterals.Disk
