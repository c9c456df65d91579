import TypedLiterals.Proofs.Disk.Ways
import TypedLiterals.Proofs.Parent

/-!
Where the specifier of an import leads.

A specifier goes up from the directory of the importing file to the last directory that it shares with the
target, and down from there: one step up for each step of the directory that the target does not share. With
the ending put back it spells the place of the target, unless one of these steps of the directory leads up
itself.
-/

namespace TypedLiterals

namespace Disk

variable {place : Place} {names : List String}

theorem resolve_filter_dots (place : Place) (names : List String) :
    resolve place (names.filter (· ≠ ".")) = resolve place names := by
  induction names generalizing place with
  | nil => rfl
  | cons name rest ih =>
      by_cases dot : name = "."
      · rw [List.filter_cons_of_neg (by simp [dot]), ih, resolve, if_pos dot]
      · rw [List.filter_cons_of_pos (by simpa using dot), resolve, resolve, if_neg dot, if_neg dot]
        split
        · exact ih _
        · exact ih _

theorem resolve_back (place : Place) (names : List String) :
    resolve (place ++ names) (List.replicate names.length "..") = place := by
  induction names using List.reverseRecOn with
  | nil => rw [List.append_nil, List.length_nil, List.replicate_zero, resolve]
  | append_singleton front name ih =>
      rw [List.length_append, List.length_singleton, List.replicate_succ, resolve, if_neg (by decide),
        if_pos rfl, ← List.append_assoc, List.dropLast_concat, ih]

end Disk

namespace Path

variable {path directory target : Path} {text : List Char} {pieces : List (List Char)} {extension : String}

/-! ## Steps -/

/-- The names that pieces between slashes stand for, dots left out. -/
theorem filter_dots (pieces : List (List Char)) :
    ((pieces.filter (· ≠ [])).map String.ofList).filter (· ≠ ".") =
      (pieces.filter (!isVoid ·)).map String.ofList := by
  rw [List.filter_map, List.filter_filter]
  congr 1
  refine List.filter_congr fun piece _ => ?_
  by_cases void : isVoid piece = true
  · by_cases empty : piece = []
    · simp [empty, isVoid]
    · simp [void, eq_dot_of_void void empty]
  · have named := Bool.eq_false_iff.mpr void
    have present : piece ≠ [] := by
      rintro rfl
      cases named
    simpa [named, present] using ofList_ne_dot named

/-- The names of a path that are no dots. -/
def steps (path : Path) : List String :=
  (Disk.pathNames path.text).filter (· ≠ ".")

theorem placeOf_eq (path : Path) : Disk.placeOf path = Disk.resolve [] path.steps := by
  rw [Disk.placeOf, steps, Disk.resolve_filter_dots]

theorem text_pieceComponent (piece : List Char) : (pieceComponent piece).text = String.ofList piece := by
  unfold pieceComponent
  split
  · next up =>
    rw [up]
    rfl
  · rfl

theorem splitHead_of_isAbsolute (absolute : path.isAbsolute = true) : (splitHead path.text.toList).1 = ['/'] := by
  obtain ⟨rest, whole⟩ : ∃ rest, path.text.toList = '/' :: rest :=
    List.head?_eq_some_iff.mp (by simpa [isAbsolute] using absolute)
  rw [whole]
  rfl

/-- The components of an absolute path are the root and its steps. -/
theorem exists_components (absolute : path.isAbsolute = true) :
    ∃ rest, path.components = .root :: rest ∧ path.steps = rest.map (·.text) ∧
      ∀ component ∈ rest, ∃ piece, IsName piece ∧ isVoid piece = false ∧ component = pieceComponent piece := by
  have head := splitHead_of_isAbsolute absolute
  refine ⟨(path.bodyPieces.filter (!isVoid ·)).map pieceComponent, by rw [components, Text.characters_eq, head]; rfl, ?_, ?_⟩
  · rw [steps, pathNames_path, head, headPieces, if_neg (by decide), List.map_nil, List.nil_append,
      filter_dots, List.map_map]
    exact List.map_congr_left fun piece _ => (text_pieceComponent piece).symm
  · intro component member
    obtain ⟨piece, inside, rfl⟩ := List.mem_map.mp member
    obtain ⟨found, named⟩ := List.mem_filter.mp inside
    have notVoid : isVoid piece = false := by simpa using named
    refine ⟨piece, ⟨?_, separates_of_mem_splitWhere _ piece found⟩, notVoid, rfl⟩
    rintro rfl
    cases notVoid

theorem isPlain_pieceComponent {piece : List Char} (named : isVoid piece = false)
    (down : pieceComponent piece ≠ .parent) : Disk.IsPlain (pieceComponent piece).text := by
  rw [text_pieceComponent]
  refine ⟨ofList_ne_dot named, fun up => down ?_⟩
  have same : piece = ['.', '.'] := by
    rw [← String.toList_ofList (l := piece), up]
    rfl
  rw [pieceComponent, if_pos same]

/-! ## Specifiers -/

theorem pathNames_joinSlashes_of_names (names : ∀ piece ∈ pieces, IsName piece) :
    Disk.pathNames (String.ofList (joinSlashes pieces)) = pieces.map String.ofList := by
  rw [pathNames_ofList]
  by_cases present : pieces = []
  · subst present
    rfl
  · rw [splitWhere_joinSlashes isSlash_slash present fun piece member => (names piece member).2,
      List.filter_eq_self.mpr fun piece member => by simpa using (names piece member).1]

theorem withoutEnding_append (ending text : List Char) : withoutEnding ending (text ++ ending) = text := by
  rw [withoutEnding, if_pos (by simp), List.length_append, Nat.add_sub_cancel, List.take_left]

theorem sharedLength_spec {α : Type} [DecidableEq α] (lefts rights : List α) :
    lefts.take (sharedLength lefts rights) = rights.take (sharedLength lefts rights) ∧
      sharedLength lefts rights ≤ lefts.length := by
  fun_induction sharedLength lefts rights with
  | case1 left lefts rights ih => simpa using ih
  | case2 => simp
  | case3 => simp

theorem sharedLength_comm {α : Type} [DecidableEq α] (lefts rights : List α) :
    sharedLength lefts rights = sharedLength rights lefts := by
  fun_induction sharedLength lefts rights with
  | case1 left lefts rights ih => rw [sharedLength, if_pos rfl, ih]
  | case2 left lefts right rights apart => rw [sharedLength, if_neg (Ne.symm apart)]
  | case3 lefts rights short =>
      cases lefts with
      | nil => cases rights <;> rfl
      | cons left lefts =>
          cases rights with
          | nil => rfl
          | cons right rights => exact (short left lefts right rights rfl rfl).elim

theorem sharedLength_map {α β : Type} [DecidableEq α] [DecidableEq β] {key : α → β} {lefts rights : List α}
    (apart : ∀ left ∈ lefts, ∀ right ∈ rights, key left = key right → left = right) :
    sharedLength (lefts.map key) (rights.map key) = sharedLength lefts rights := by
  fun_induction sharedLength lefts rights with
  | case1 left lefts rights ih =>
      rw [List.map_cons, List.map_cons, sharedLength, if_pos rfl, ih fun one first other second =>
        apart one (List.mem_cons_of_mem _ first) other (List.mem_cons_of_mem _ second)]
  | case2 left lefts right rights differ =>
      rw [List.map_cons, List.map_cons, sharedLength,
        if_neg fun same => differ (apart left List.mem_cons_self right List.mem_cons_self same)]
  | case3 lefts rights short =>
      cases lefts with
      | nil => rfl
      | cons left lefts =>
          cases rights with
          | nil => rfl
          | cons right rights => exact (short left lefts right rights rfl rfl).elim

/-- The steps of a path behind those that it shares with another one. -/
def beyond (path other : Path) : List String :=
  path.steps.drop (sharedLength path.steps other.steps)

/-- The file that an import of a target names in a directory: the ending is put back when it was left out. -/
def imported (directory target : Path) (extension : String) : Path :=
  directory.join ⟨specifier directory target extension ++
    if extension.toList <:+ stepsBetween directory target then extension else ""⟩

theorem isName_of_mem_steps (absolute : path.isAbsolute = true) {name : String} (member : name ∈ path.steps) :
    IsName name.toList := by
  obtain ⟨rest, _, steps, names⟩ := exists_components absolute
  rw [steps] at member
  obtain ⟨component, listed, rfl⟩ := List.mem_map.mp member
  obtain ⟨piece, isName, _, rfl⟩ := names component listed
  rwa [text_pieceComponent, String.toList_ofList]

theorem ne_dot_of_mem_steps {name : String} (member : name ∈ path.steps) : name ≠ "." := by
  simpa using (List.mem_filter.mp member).2

theorem isPlain_of_mem_steps (absolute : path.isAbsolute = true) (descends : .parent ∉ path.components)
    {name : String} (member : name ∈ path.steps) : Disk.IsPlain name := by
  obtain ⟨rest, components, steps, names⟩ := exists_components absolute
  rw [steps] at member
  obtain ⟨component, listed, rfl⟩ := List.mem_map.mp member
  obtain ⟨piece, _, named, rfl⟩ := names component listed
  refine isPlain_pieceComponent named fun up => descends ?_
  rw [components, ← up]
  exact List.mem_cons_of_mem _ listed

/-- The steps up and down between a directory and a target. -/
def route (directory target : Path) : List String :=
  List.replicate (directory.beyond target).length ".." ++ target.beyond directory

theorem stepsBetween_eq (rooted : directory.isAbsolute = true) (targetRooted : target.isAbsolute = true) :
    stepsBetween directory target = joinSlashes ((directory.route target).map String.toList) := by
  obtain ⟨down, directoryComponents, directorySteps, directoryNames⟩ := exists_components rooted
  obtain ⟨goal, targetComponents, targetSteps, targetNames⟩ := exists_components targetRooted
  have same : sharedLength directory.steps target.steps = sharedLength down goal := by
    rw [directorySteps, targetSteps]
    refine sharedLength_map fun left first right second texts => ?_
    obtain ⟨one, _, _, rfl⟩ := directoryNames left first
    obtain ⟨other, _, _, rfl⟩ := targetNames right second
    rw [text_pieceComponent, text_pieceComponent] at texts
    rw [String.ofList_injective texts]
  rw [stepsBetween, route, beyond, beyond, sharedLength_comm target.steps, same, directoryComponents,
    targetComponents, sharedLength, if_pos rfl, List.length_cons, Nat.add_sub_add_right, List.drop_succ_cons,
    directorySteps, targetSteps, List.map_append, List.map_replicate, ← List.map_drop, ← List.map_drop,
    List.length_map, List.length_drop, List.map_map]
  simp only [Text.characters_eq, Function.comp_def]
  rfl

theorem starts_specifier (directory target : Path) (extension : String) :
    ['.', '/'] <+: (specifier directory target extension).toList ∨
      ['.', '.', '/'] <+: (specifier directory target extension).toList := by
  rw [specifier]
  split
  · next up =>
    rw [String.toList_ofList]
    exact .inr (List.isPrefixOf_iff_prefix.mp up)
  · rw [String.toList_ofList]
    exact .inl (List.prefix_append ['.', '/'] _)

/-- With the ending put back a specifier spells the steps, a leading dot apart. -/
theorem specifier_append (directory target : Path) (extension : String) :
    (specifier directory target extension ++
        if extension.toList <:+ stepsBetween directory target then extension else "") =
      String.ofList (stepsBetween directory target) ∨
    (specifier directory target extension ++
        if extension.toList <:+ stepsBetween directory target then extension else "") =
      "." ++ "/" ++ String.ofList (stepsBetween directory target) := by
  have whole : withoutEnding extension.toList (stepsBetween directory target) ++
      (if extension.toList <:+ stepsBetween directory target then extension else "").toList =
        stepsBetween directory target := by
    split
    · next ends =>
      obtain ⟨front, ends⟩ := ends
      rw [← ends, withoutEnding_append]
    · next other => rw [withoutEnding, if_neg (by simpa using other), String.toList_empty, List.append_nil]
  rw [specifier]
  split
  · left
    apply String.toList_injective
    rw [String.toList_append, String.toList_ofList, String.toList_ofList, whole]
  · right
    apply String.toList_injective
    rw [String.toList_append, String.toList_ofList, List.cons_append, List.cons_append, whole]
    simp

/-- From the directory the specifier leads back to the shared steps as often as the directory goes on from
there, and along the steps of the target. -/
theorem placeOf_imported (rooted : directory.isAbsolute = true) (targetRooted : target.isAbsolute = true)
    (extension : String) :
    Disk.placeOf (imported directory target extension) =
      Disk.resolve (Disk.placeOf directory) (directory.route target) := by
  have names : ∀ piece ∈ (directory.route target).map String.toList, IsName piece := by
    intro piece member
    obtain ⟨name, listed, rfl⟩ := List.mem_map.mp member
    rcases List.mem_append.mp listed with up | down
    · rw [List.eq_of_mem_replicate up]
      exact ⟨by decide, List.forall_iff_forall_mem.mp (by decide)⟩
    · exact isName_of_mem_steps targetRooted (List.mem_of_mem_drop down)
  have joined : Disk.pathNames (String.ofList (stepsBetween directory target)) = directory.route target := by
    rw [stepsBetween_eq rooted targetRooted, pathNames_joinSlashes_of_names names, List.map_map]
    exact (List.map_congr_left fun name _ => String.ofList_toList).trans (List.map_id _)
  have relative : isAbsolute ⟨specifier directory target extension ++
      if extension.toList <:+ stepsBetween directory target then extension else ""⟩ = false := by
    rcases starts_specifier directory target extension with ⟨rest, dot⟩ | ⟨rest, up⟩
    · simp [isAbsolute, ← dot]
    · simp [isAbsolute, ← up]
  rw [Disk.placeOf, imported, pathNames_join relative, Disk.resolve_append, ← Disk.placeOf]
  rcases specifier_append directory target extension with plain | dotted
  · rw [plain, joined]
  · have void : ∀ dot ∈ Disk.pathNames ".", dot = "." := by decide
    rw [dotted, pathNames_append_slash, joined, Disk.resolve_append, Disk.resolve_dots void]

/-- The last name of a path is its last component. -/
theorem exists_components_concat {front : List String} {name : String}
    (names : Disk.pathNames path.text = front ++ [name]) (named : isVoid name.toList = false) :
    ∃ before, path.components = before ++ [pieceComponent name.toList] := by
  rw [pathNames_path] at names
  have filtered : path.bodyPieces.filter (!isVoid ·) =
      (path.bodyPieces.filter (· ≠ [])).filter (!isVoid ·) := by
    rw [List.filter_filter]
    refine List.filter_congr fun piece _ => ?_
    by_cases empty : piece = [] <;> simp [empty, isVoid]
  rcases List.eq_nil_or_concat (path.bodyPieces.filter (· ≠ [])) with none | ⟨earlier, last, split⟩
  · -- Then the only name is a dot.
    rw [none, List.map_nil, List.append_nil] at names
    have dot := names_of_head _ name (by rw [names]; simp)
    rw [dot] at named
    cases named
  · rw [split, List.concat_eq_append, List.map_append, List.map_singleton, ← List.append_assoc] at names
    have same : last = name.toList := by
      rw [← List.singleton_inj.mp (List.append_inj' names rfl).2, String.toList_ofList]
    refine ⟨headComponent (splitHead path.text.toList).1 ++ (earlier.filter (!isVoid ·)).map pieceComponent, ?_⟩
    rw [components, filtered, split, List.concat_eq_append, List.filter_append, same]
    simp [named]

/-- Steps to what does not contain the directory end in its last component. -/
theorem exists_stepsBetween {before : List Component} {last : Component}
    (goal : target.components = before ++ [last]) (outside : ¬ target.components <+: directory.components) :
    ∃ front, stepsBetween directory target = joinSlashes (front ++ [last.text.toList]) := by
  obtain ⟨same, _⟩ := sharedLength_spec directory.components target.components
  rw [stepsBetween]
  generalize sharedLength directory.components target.components = count at same
  have early : count ≤ before.length := by
    by_contra late
    refine outside ?_
    rw [← List.take_of_length_le (l := target.components) (i := count) (by rw [goal]; simp; omega), ← same]
    exact List.take_prefix _ _
  refine ⟨List.replicate (directory.components.length - count) ['.', '.'] ++
    (before.drop count).map (·.text.toList), ?_⟩
  simp only [Text.characters_eq]
  rw [goal, List.drop_append_of_le_length early, List.map_append, List.map_singleton, List.append_assoc]

/-- What the last step ends in before its ending is left out, the specifier ends in. -/
theorem suffix_specifier {front : List (List Char)} {stem tail : List Char}
    (between : stepsBetween directory target = joinSlashes (front ++ [stem ++ (tail ++ extension.toList)])) :
    tail <:+ (specifier directory target extension).toList := by
  have whole : joinSlashes (front ++ [stem]) ++ (tail ++ extension.toList) =
      joinSlashes (front ++ [stem ++ (tail ++ extension.toList)]) := by
    rw [joinSlashes_append, extendLast_append _ (List.cons_ne_nil _ _), extendLast]
  rw [specifier, between, ← whole, ← List.append_assoc, withoutEnding_append]
  split
  · rw [String.toList_ofList]
    exact List.suffix_append _ _
  · rw [String.toList_ofList, ← List.cons_append, ← List.cons_append]
    exact List.suffix_append _ _

/-- Whether a target can be named from a directory by steps up and down and an ending that is left out. -/
structure Reaches (directory target : Path) (extension : String) : Prop where
  rooted : directory.isAbsolute = true
  targetRooted : target.isAbsolute = true
  /-- A step up in the directory would be taken for a name to go back from. -/
  descends : Component.parent ∉ directory.components
  outside : ¬ target.components <+: directory.components
  ends : ∃ front stem, target.steps = front ++ [String.ofList (stem ++ extension.toList)]

/-- The place of the last directory that two paths share. -/
def meeting (path other : Path) : Disk.Place :=
  Disk.resolve [] (path.steps.take (sharedLength path.steps other.steps))

theorem placeOf_eq_meeting (path other : Path) :
    Disk.placeOf path = Disk.resolve (path.meeting other) (path.beyond other) := by
  rw [placeOf_eq, meeting, beyond, ← Disk.resolve_append, List.take_append_drop]

theorem meeting_comm (path other : Path) : path.meeting other = other.meeting path := by
  rw [meeting, meeting, (sharedLength_spec _ _).1, sharedLength_comm]

/-- When the directory goes down from the shared steps, the route leads back to them and on to the target. -/
theorem resolve_route (plain : ∀ name ∈ directory.beyond target, Disk.IsPlain name) :
    Disk.resolve (Disk.placeOf directory) (directory.route target) = Disk.placeOf target := by
  rw [placeOf_eq_meeting directory target, Disk.resolve_plain _ plain, route, Disk.resolve_append,
    Disk.resolve_back, meeting_comm, ← placeOf_eq_meeting]

/-- A specifier, its ending put back, spells the place of its target. -/
theorem Reaches.placeOf (reaches : Reaches directory target extension) :
    Disk.placeOf (directory.join ⟨specifier directory target extension ++ extension⟩) = Disk.placeOf target := by
  obtain ⟨goal, components, steps, _⟩ := exists_components reaches.targetRooted
  obtain ⟨front, stem, ends⟩ := reaches.ends
  -- What is left of the target ends in the name of its file.
  obtain ⟨before, last, rfl⟩ : ∃ before last, goal = before ++ [last] := by
    rcases List.eq_nil_or_concat goal with rfl | ⟨before, last, split⟩
    · simp [ends] at steps
    · exact ⟨before, last, by rw [split, List.concat_eq_append]⟩
  rw [ends, List.map_append, List.map_singleton] at steps
  have lastText := List.singleton_inj.mp (List.append_inj' steps rfl).2
  have goal : target.components = (.root :: before) ++ [last] := by rw [components, List.cons_append]
  obtain ⟨earlier, between⟩ := exists_stepsBetween goal reaches.outside
  have kept : extension.toList <:+ stepsBetween directory target := by
    rw [between, ← lastText, String.toList_ofList]
    have whole := joinSlashes_append (earlier ++ [stem]) extension.toList
    rw [extendLast_append _ (List.cons_ne_nil _ _), extendLast] at whole
    exact ⟨_, whole⟩
  have reached := placeOf_imported reaches.rooted reaches.targetRooted extension
  rw [imported, if_pos kept] at reached
  rw [reached, resolve_route fun name member =>
    isPlain_of_mem_steps reaches.rooted reaches.descends (List.mem_of_mem_drop member)]

end Path

end TypedLiterals
