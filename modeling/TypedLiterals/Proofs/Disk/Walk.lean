import TypedLiterals.Proofs.Disk.Basic

/-!
Walks along paths.

`Walks` says by rules where names lead, and `walk` finds exactly the spots that these rules give. A walk
of several names goes on from where a walk of the first of them ends. Where no link stands on the way it
ends at the place that the names spell, and a walk to a file or a directory is not disturbed by changes
that leave directories and links alone.
-/

namespace TypedLiterals.Disk

/-- A name that leads down. -/
def IsPlain (name : String) : Prop :=
  name ≠ "." ∧ name ≠ ".."

/-- Where names lead from a place, through no more than so many links. -/
inductive Walks (disk : Disk) (follow : Bool) : (links : Nat) → Place → List String → Spot → Prop
  | stop {links : Nat} {place : Place} : Walks disk follow links place [] (.present place)
  | current {links : Nat} {place : Place} {rest : List String} {spot : Spot} :
      disk.node? place = some .directory → Walks disk follow links place rest spot →
      Walks disk follow links place ("." :: rest) spot
  | parent {links : Nat} {place : Place} {rest : List String} {spot : Spot} :
      disk.node? place = some .directory → Walks disk follow links place.dropLast rest spot →
      Walks disk follow links place (".." :: rest) spot
  | absent {links : Nat} {place : Place} {name : String} :
      disk.node? place = some .directory → IsPlain name → disk.node? (place ++ [name]) = none →
      Walks disk follow links place [name] (.absent place name)
  | down {links : Nat} {place : Place} {name : String} {rest : List String} {node : Node} {spot : Spot} :
      disk.node? place = some .directory → IsPlain name → disk.node? (place ++ [name]) = some node →
      (∀ target, node ≠ .link target) → Walks disk follow links (place ++ [name]) rest spot →
      Walks disk follow links place (name :: rest) spot
  | lastLink {links : Nat} {place : Place} {name target : String} :
      disk.node? place = some .directory → IsPlain name →
      disk.node? (place ++ [name]) = some (.link target) → follow = false →
      Walks disk follow links place [name] (.present (place ++ [name]))
  | link {links : Nat} {place : Place} {name target : String} {rest : List String} {spot : Spot} :
      disk.node? place = some .directory → IsPlain name →
      disk.node? (place ++ [name]) = some (.link target) → ¬ (rest = [] ∧ follow = false) →
      Walks disk follow links (if isAbsoluteText target then [] else place) (pathNames target ++ rest)
        spot →
      Walks disk follow (links + 1) place (name :: rest) spot

/-- The place that a spot stands for, whether or not something stands there. -/
def Spot.place : Spot → Place
  | present place => place
  | absent directory name => directory ++ [name]

variable {before after disk : Disk} {follow : Bool} {links : Nat} {place base : Place}
  {names front back : List String} {spot : Spot}

/-! ## The rules and the function -/

/-- What a walk does at a link, after so many links that may still come. -/
def jump (disk : Disk) (follow : Bool) : (links : Nat) → Place → List String → Except Fault Spot
  | 0 => fun _ _ => .error .tooManyLinks
  | links + 1 => walk disk follow links

theorem walk_eq (disk : Disk) (follow : Bool) (links : Nat) :
    walk disk follow links = walkNames disk follow (jump disk follow links) := by
  cases links <;> rfl

theorem Walks.walk (walks : Walks disk follow links place names spot) :
    disk.walk follow links place names = .ok spot := by
  induction walks with
  | stop => rw [walk_eq, walkNames]
  | current inside _ ih =>
      rw [walk_eq] at ih ⊢
      simp [walkNames, inside, ih]
  | parent inside _ ih =>
      rw [walk_eq] at ih ⊢
      simp [walkNames, inside, ih]
  | absent inside plain vacant =>
      rw [walk_eq]
      simp [walkNames, inside, plain.1, plain.2, vacant]
  | @down _ _ _ _ node _ inside plain stands noLink _ ih =>
      rw [walk_eq] at ih ⊢
      cases node with
      | link target => exact absurd rfl (noLink target)
      | file content => simp [walkNames, inside, plain.1, plain.2, stands, ih]
      | directory => simp [walkNames, inside, plain.1, plain.2, stands, ih]
  | lastLink inside plain stands last =>
      rw [walk_eq]
      simp [walkNames, inside, plain.1, plain.2, stands, last]
  | link inside plain stands goesOn _ ih =>
      rw [walk_eq, walkNames, if_neg (by simp [inside]), if_neg plain.1, if_neg plain.2, stands]
      simp only [if_neg goesOn]
      exact ih

theorem walks_of_walkNames
    (jumps : ∀ place names, jump disk follow links place names = .ok spot →
      ∃ left, links = left + 1 ∧ Walks disk follow left place names spot)
    (walked : walkNames disk follow (jump disk follow links) place names = .ok spot) :
    Walks disk follow links place names spot := by
  induction names generalizing place with
  | nil =>
      rw [walkNames] at walked
      cases walked
      exact .stop
  | cons name rest ih =>
      rw [walkNames] at walked
      split at walked
      · contradiction
      next outside =>
        have inside : disk.node? place = some .directory := by simpa using outside
        split at walked
        · next same => exact same ▸ .current inside (ih walked)
        next notCurrent =>
          split at walked
          · next same => exact same ▸ .parent inside (ih walked)
          next notParent =>
            split at walked
            · next vacant =>
                split at walked
                · next last =>
                    cases walked
                    exact last ▸ .absent inside ⟨notCurrent, notParent⟩ vacant
                · contradiction
            · next target stands =>
                split at walked
                · next last =>
                    cases walked
                    obtain ⟨rfl, unfollowed⟩ := last
                    exact .lastLink inside ⟨notCurrent, notParent⟩ stands unfollowed
                · next goesOn =>
                    obtain ⟨left, rfl, walks⟩ := jumps _ _ walked
                    exact .link inside ⟨notCurrent, notParent⟩ stands goesOn walks
            · next node noLink stands =>
                exact .down inside ⟨notCurrent, notParent⟩ stands noLink (ih walked)

theorem walk_eq_ok_iff :
    disk.walk follow links place names = .ok spot ↔ Walks disk follow links place names spot := by
  refine ⟨?_, Walks.walk⟩
  induction links generalizing place names with
  | zero =>
      intro walked
      rw [walk_eq] at walked
      exact walks_of_walkNames (fun _ _ jumped => by cases jumped) walked
  | succ links ih =>
      intro walked
      rw [walk_eq] at walked
      exact walks_of_walkNames (fun _ _ jumped => ⟨links, rfl, ih jumped⟩) walked

theorem Walks.unique {other : Spot} (walks : Walks disk follow links place names spot)
    (also : Walks disk follow links place names other) : spot = other := by
  have same := walks.walk.symm.trans also.walk
  exact Except.ok.inj same

/-! ## Parts of a walk -/

/-- A walk goes on from where the walk of its first names ends. -/
theorem Walks.of_append (walks : Walks disk follow links place (front ++ back) spot)
    (present : back ≠ []) :
    ∃ base left, Walks disk true links place front (.present base) ∧
      Walks disk follow left base back spot := by
  -- By induction on the walk: while `front` has names the same step starts the shorter walk, and once it is
  -- used up the rest of the walk is the second part.
  generalize whole : front ++ back = names at walks
  induction walks generalizing front with
  | @stop links place =>
      rw [List.append_eq_nil_iff] at whole
      exact absurd whole.2 present
  | @current links place rest spot inside later ih =>
      cases front with
      | nil =>
          rw [List.nil_append] at whole
          subst whole
          exact ⟨place, links, .stop, .current inside later⟩
      | cons first others =>
          obtain ⟨rfl, tail⟩ := List.cons.inj whole
          obtain ⟨base, left, led, goesOn⟩ := ih tail
          exact ⟨base, left, .current inside led, goesOn⟩
  | @parent links place rest spot inside later ih =>
      cases front with
      | nil =>
          rw [List.nil_append] at whole
          subst whole
          exact ⟨place, links, .stop, .parent inside later⟩
      | cons first others =>
          obtain ⟨rfl, tail⟩ := List.cons.inj whole
          obtain ⟨base, left, led, goesOn⟩ := ih tail
          exact ⟨base, left, .parent inside led, goesOn⟩
  | @absent links place name inside plain vacant =>
      cases front with
      | nil =>
          rw [List.nil_append] at whole
          subst whole
          exact ⟨place, links, .stop, .absent inside plain vacant⟩
      | cons first others =>
          obtain ⟨_, tail⟩ := List.cons.inj whole
          exact absurd (List.append_eq_nil_iff.mp tail).2 present
  | @down links place name rest node spot inside plain stands noLink later ih =>
      cases front with
      | nil =>
          rw [List.nil_append] at whole
          subst whole
          exact ⟨place, links, .stop, .down inside plain stands noLink later⟩
      | cons first others =>
          obtain ⟨rfl, tail⟩ := List.cons.inj whole
          obtain ⟨base, left, led, goesOn⟩ := ih tail
          exact ⟨base, left, .down inside plain stands noLink led, goesOn⟩
  | @lastLink links place name target inside plain stands unfollowed =>
      cases front with
      | nil =>
          rw [List.nil_append] at whole
          subst whole
          exact ⟨place, links, .stop, .lastLink inside plain stands unfollowed⟩
      | cons first others =>
          obtain ⟨_, tail⟩ := List.cons.inj whole
          exact absurd (List.append_eq_nil_iff.mp tail).2 present
  | @link links place name target rest spot inside plain stands passes later ih =>
      cases front with
      | nil =>
          rw [List.nil_append] at whole
          subst whole
          exact ⟨place, links + 1, .stop, .link inside plain stands passes later⟩
      | cons first others =>
          obtain ⟨rfl, tail⟩ := List.cons.inj whole
          have inner : (pathNames target ++ others) ++ back = pathNames target ++ rest := by
            rw [List.append_assoc]
            exact congrArg (pathNames target ++ ·) tail
          obtain ⟨base, left, led, goesOn⟩ := ih inner
          exact ⟨base, left, .link inside plain stands (by simp) led, goesOn⟩

/-! ## Ways that are kept -/

/-- What stands at the end of a walk that passes no further link. -/
def Settled (disk : Disk) (place : Place) : Prop :=
  ∃ node, disk.node? place = some node ∧ ∀ target, node ≠ .link target

theorem isFile_directory : ¬ Node.IsFile .directory := by
  rintro ⟨_, same⟩
  cases same

theorem isFile_link (target : String) : ¬ Node.IsFile (.link target) := by
  rintro ⟨_, same⟩
  cases same

/-- Where ways are kept a walk ends at the same place, once something stands there. -/
theorem Walks.of_keepsWays (ways : KeepsWays before after)
    (walks : Walks before follow links place names spot) (settled : Settled after spot.place) :
    Walks after true links place names (.present spot.place) := by
  induction walks with
  | stop => exact .stop
  | current inside _ ih => exact .current (ways _ _ inside isFile_directory) (ih settled)
  | parent inside _ ih => exact .parent (ways _ _ inside isFile_directory) (ih settled)
  | absent inside plain _ =>
      obtain ⟨node, stands, noLink⟩ := settled
      exact .down (ways _ _ inside isFile_directory) plain stands noLink .stop
  | @down links place name rest node spot inside plain stands noLink later ih =>
      have kept := ways _ _ inside isFile_directory
      by_cases file : node.IsFile
      · -- Only the last name can be that of a file.
        cases later with
        | stop =>
            obtain ⟨next, standsNext, noLinkNext⟩ := settled
            exact .down kept plain standsNext noLinkNext .stop
        | current below _ | parent below _ | absent below _ _ | down below _ _ _ _ | lastLink below _ _ _
        | link below _ _ _ _ =>
            rw [stands] at below
            cases below
            exact absurd file isFile_directory
      · exact .down kept plain (ways _ _ stands file) noLink (ih settled)
  | lastLink inside plain stands _ =>
      obtain ⟨node, standsNext, noLink⟩ := settled
      have kept := ways _ _ stands (isFile_link _)
      rw [Spot.place, kept] at standsNext
      cases standsNext
      exact absurd rfl (noLink _)
  | link inside plain stands _ _ ih =>
      exact .link (ways _ _ inside isFile_directory) plain (ways _ _ stands (isFile_link _)) (by simp)
        (ih settled)

/-! ## Ways without links -/

/-- The place that names spell from a place on. -/
def resolve : Place → List String → Place
  | place, [] => place
  | place, name :: rest =>
    if name = "." then resolve place rest
    else if name = ".." then resolve place.dropLast rest
    else resolve (place ++ [name]) rest

/-- Whether no link stands on the way that names spell from a place on. -/
def Clear (disk : Disk) : Place → List String → Prop
  | _, [] => True
  | place, name :: rest =>
    if name = "." then Clear disk place rest
    else if name = ".." then Clear disk place.dropLast rest
    else (∀ target, disk.node? (place ++ [name]) ≠ some (.link target)) ∧ Clear disk (place ++ [name]) rest

theorem Walks.place_eq (walks : Walks disk follow links place names spot) (clear : Clear disk place names) :
    spot.place = resolve place names := by
  induction walks with
  | stop => rfl
  | current _ _ ih => exact ih (by simpa [Clear] using clear)
  | parent _ _ ih => exact ih (by simpa [Clear] using clear)
  | absent _ plain _ => simp [Spot.place, resolve, plain.1, plain.2]
  | down _ plain _ _ _ ih =>
      rw [Clear, if_neg plain.1, if_neg plain.2] at clear
      rw [ih clear.2]
      simp [resolve, plain.1, plain.2]
  | lastLink _ plain stands _ =>
      rw [Clear, if_neg plain.1, if_neg plain.2] at clear
      exact absurd stands (clear.1 _)
  | link _ plain stands _ _ _ =>
      rw [Clear, if_neg plain.1, if_neg plain.2] at clear
      exact absurd stands (clear.1 _)

theorem Walks.inside {name : String} (walks : Walks disk follow links place (name :: names) spot) :
    disk.node? place = some .directory := by
  cases walks with
  | current inside _ | parent inside _ | absent inside _ _ | down inside _ _ _ _
  | lastLink inside _ _ _ | link inside _ _ _ _ => exact inside

theorem Walks.of_append_name {name : String} (walks : Walks disk follow links place (front ++ [name]) spot)
    (plain : IsPlain name) :
    ∃ base, Walks disk true links place front (.present base) ∧ disk.node? base = some .directory ∧
      ((∀ target, disk.node? (base ++ [name]) ≠ some (.link target)) → spot.place = base ++ [name]) := by
  obtain ⟨base, left, led, last⟩ := walks.of_append (List.cons_ne_nil _ _)
  refine ⟨base, led, last.inside, fun noLink => ?_⟩
  have clear : Clear disk base [name] := by
    rw [Clear, if_neg plain.1, if_neg plain.2]
    exact ⟨noLink, trivial⟩
  rw [last.place_eq clear, resolve, if_neg plain.1, if_neg plain.2, resolve]

theorem Clear.of_links (links : ∀ place target, after.node? place = some (.link target) →
    before.node? place = some (.link target)) (clear : Clear before place names) :
    Clear after place names := by
  induction names generalizing place with
  | nil => trivial
  | cons name rest ih =>
      rw [Clear] at clear ⊢
      split
      · next same => exact ih (by simpa [same] using clear)
      · next notCurrent =>
          rw [if_neg notCurrent] at clear
          split
          · next same => exact ih (by simpa [same] using clear)
          · next notParent =>
              rw [if_neg notParent] at clear
              exact ⟨fun target stands => clear.1 target (links _ _ stands), ih clear.2⟩

theorem clear_of_noLink (noLink : ∀ place target, disk.node? place ≠ some (.link target)) (place : Place)
    (names : List String) : Clear disk place names := by
  induction names generalizing place with
  | nil => trivial
  | cons name rest ih =>
      rw [Clear]
      split
      · exact ih _
      · split
        · exact ih _
        · exact ⟨noLink _, ih _⟩

theorem resolve_append (place : Place) (front back : List String) :
    resolve place (front ++ back) = resolve (resolve place front) back := by
  induction front generalizing place with
  | nil => rfl
  | cons name rest ih =>
      rw [List.cons_append, resolve, resolve]
      split
      · exact ih _
      · split
        · exact ih _
        · exact ih _

theorem resolve_plain (place : Place) (plain : ∀ name ∈ names, IsPlain name) :
    resolve place names = place ++ names := by
  induction names generalizing place with
  | nil => rw [resolve, List.append_nil]
  | cons name rest ih =>
      have first := plain name List.mem_cons_self
      rw [resolve, if_neg first.1, if_neg first.2, ih _ fun other member => plain other
        (List.mem_cons_of_mem _ member), List.append_assoc, List.singleton_append]

theorem clear_append (place : Place) (front back : List String) :
    Clear disk place (front ++ back) ↔ Clear disk place front ∧ Clear disk (resolve place front) back := by
  induction front generalizing place with
  | nil => exact ⟨fun clear => ⟨trivial, clear⟩, fun clear => clear.2⟩
  | cons name rest ih =>
      rw [List.cons_append, Clear, Clear, resolve]
      split
      · exact ih _
      · split
        · exact ih _
        · rw [ih, and_assoc]

theorem Clear.last {name : String} (clear : Clear disk place (front ++ [name])) (plain : IsPlain name)
    (target : String) : disk.node? (resolve place (front ++ [name])) ≠ some (.link target) := by
  have step := ((clear_append place front [name]).mp clear).2
  rw [Clear, if_neg plain.1, if_neg plain.2] at step
  rw [resolve_append, resolve, if_neg plain.1, if_neg plain.2]
  exact step.1 target

/-- A clear way from places without links leads to none. -/
theorem Clear.not_link (clear : Clear disk place names)
    (above : ∀ front, front <+: place → ∀ target, disk.node? front ≠ some (.link target)) :
    ∀ front, front <+: resolve place names → ∀ target, disk.node? front ≠ some (.link target) := by
  induction names generalizing place with
  | nil =>
      rw [resolve]
      exact above
  | cons name rest ih =>
      rw [Clear] at clear
      rw [resolve]
      split at clear
      · next same =>
          rw [if_pos same]
          exact ih clear above
      · next notCurrent =>
          rw [if_neg notCurrent]
          split at clear
          · next same =>
              rw [if_pos same]
              exact ih clear fun front inside => above front (inside.trans (List.dropLast_prefix place))
          · next notParent =>
              rw [if_neg notParent]
              refine ih clear.2 fun front inside => ?_
              rcases List.prefix_concat_iff.mp inside with rfl | inside
              · exact clear.1
              · exact above front inside

theorem Walks.of_led (walks : Walks disk follow links place (front ++ back) spot) (present : back ≠ [])
    (led : Walks disk true links place front (.present base)) :
    ∃ left, Walks disk follow left base back spot := by
  obtain ⟨other, left, also, rest⟩ := walks.of_append present
  cases also.unique led
  exact ⟨left, rest⟩

-- Names of artifacts are long to compute, so nothing may unfold a way along them unasked.
attribute [irreducible] Clear resolve

end TypedLiterals.Disk
