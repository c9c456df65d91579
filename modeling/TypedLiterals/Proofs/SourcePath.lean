import TypedLiterals.Proofs.Containment

/-!
Paths of sources given by a user.

A path is made relative to the working directory by its canonical spelling, and is joined to the working
directory again where the source is read. What is left of a path below the working directory leads there and
back. A path outside it is spelled as it is, so its steps are taken from the working directory instead of from
the root, and the file is another one unless these steps climb to the root anyway.
-/

namespace TypedLiterals

namespace Path

variable {path directory rest : Path} {pieces left : List (List Char)} {wanted : List Component}

/-! ## What is left of a path -/

/-- The components that pieces of a path stand for. -/
def stepComponents (pieces : List (List Char)) : List Component :=
  (pieces.filter (!isVoid ·)).map pieceComponent

theorem stepComponents_cons {piece : List Char} (named : isVoid piece = false) :
    stepComponents (piece :: pieces) = pieceComponent piece :: stepComponents pieces := by
  rw [stepComponents, List.filter_cons_of_pos (by simpa using named), List.map_cons, stepComponents]

theorem filter_dropWhile_isVoid (pieces : List (List Char)) :
    (pieces.dropWhile isVoid).filter (!isVoid ·) = pieces.filter (!isVoid ·) := by
  induction pieces with
  | nil => rfl
  | cons piece later ih =>
      cases void : isVoid piece with
      | true => simp [void, ih]
      | false => simp [void]

theorem filter_trimVoidEnd (pieces : List (List Char)) :
    (trimVoidEnd pieces).filter (!isVoid ·) = pieces.filter (!isVoid ·) := by
  rw [trimVoidEnd, List.filter_reverse, filter_dropWhile_isVoid, List.filter_reverse, List.reverse_reverse]

theorem mem_of_mem_trimVoidEnd {piece : List Char} (member : piece ∈ trimVoidEnd pieces) : piece ∈ pieces :=
  (List.rdropWhile_prefix _ _).subset member

/-- Either the first piece that means something is the one wanted, or none is. -/
theorem stepComponents_dropWhile (pieces : List (List Char)) :
    (pieces.dropWhile isVoid = [] ∧ stepComponents pieces = []) ∨
    ∃ piece later, pieces.dropWhile isVoid = piece :: later ∧
      stepComponents pieces = pieceComponent piece :: stepComponents later := by
  have same : stepComponents pieces = stepComponents (pieces.dropWhile isVoid) := by
    rw [stepComponents, stepComponents, filter_dropWhile_isVoid]
  have stops := List.head?_dropWhile_not isVoid pieces
  rw [same]
  cases rest : pieces.dropWhile isVoid with
  | nil => exact .inl ⟨rfl, rfl⟩
  | cons piece later =>
      rw [rest] at stops
      exact .inr ⟨piece, later, rfl, stepComponents_cons stops⟩

theorem dropComponents_eq_some (dropped : dropComponents wanted pieces = some left) :
    left <:+ pieces ∧ stepComponents pieces = wanted ++ stepComponents left := by
  induction wanted generalizing pieces with
  | nil =>
      cases Option.some.inj dropped
      exact ⟨List.suffix_refl _, rfl⟩
  | cons component wanted ih =>
      rw [dropComponents] at dropped
      rcases stepComponents_dropWhile pieces with ⟨none, _⟩ | ⟨piece, later, found, steps⟩
      · simp [none] at dropped
      · simp only [found] at dropped
        split at dropped
        · next same =>
          obtain ⟨inside, split⟩ := ih dropped
          have after : piece :: later <:+ pieces := found ▸ List.dropWhile_suffix _
          exact ⟨inside.trans ((List.suffix_cons piece later).trans after),
            by rw [steps, same, split, List.cons_append]⟩
        · cases dropped

theorem dropComponents_eq_none (dropped : dropComponents wanted pieces = none) :
    ¬ wanted <+: stepComponents pieces := by
  induction wanted generalizing pieces with
  | nil => cases dropped
  | cons component wanted ih =>
      rw [dropComponents] at dropped
      rcases stepComponents_dropWhile pieces with ⟨_, steps⟩ | ⟨piece, later, found, steps⟩
      · simp [steps]
      · simp only [found] at dropped
        rw [steps, List.cons_prefix_cons]
        rintro ⟨rfl, begins⟩
        rw [if_pos rfl] at dropped
        exact ih dropped begins

theorem steps_joinSlashes (inside : ∀ piece ∈ pieces, ∀ character ∈ piece, isSlash character = false) :
    steps ⟨String.ofList (joinSlashes pieces)⟩ = (stepComponents pieces).map (·.text) := by
  have split : (splitWhere isSlash (joinSlashes pieces)).filter (!isVoid ·) = pieces.filter (!isVoid ·) := by
    by_cases present : pieces = []
    · subst present
      rfl
    · rw [splitWhere_joinSlashes isSlash_slash present inside]
  rw [steps, pathNames_ofList, filter_dots, split, stepComponents, List.map_map]
  exact List.map_congr_left fun piece _ => (text_pieceComponent piece).symm

theorem components_of_isAbsolute (absolute : path.isAbsolute = true) :
    path.components = .root :: stepComponents path.bodyPieces := by
  rw [components, Text.characters_eq, splitHead_of_isAbsolute absolute]
  rfl

theorem steps_eq (absolute : path.isAbsolute = true) :
    path.steps = (stepComponents path.bodyPieces).map (·.text) := by
  obtain ⟨rest, components, steps, _⟩ := exists_components absolute
  rw [steps]
  rw [components_of_isAbsolute absolute] at components
  rw [(List.cons.inj components).2]

/-- Only a path that begins with the components of a directory is cut, and what is left of it are its other
steps. -/
theorem stripPrefix?_cases (absolute : path.isAbsolute = true) (rooted : directory.isAbsolute = true) :
    (path.stripPrefix? directory = none ∧ ¬ directory.components <+: path.components) ∨
    ∃ rest, path.stripPrefix? directory = some rest ∧ directory.components <+: path.components ∧
      path.steps = directory.steps ++ rest.steps := by
  have head : headComponent (splitHead path.text.toList).1 = [.root] := by
    rw [splitHead_of_isAbsolute absolute]
    rfl
  rw [components_of_isAbsolute absolute, components_of_isAbsolute rooted, List.cons_prefix_cons]
  have strip : path.stripPrefix? directory =
      (dropComponents (stepComponents directory.bodyPieces) path.bodyPieces).map fun pieces =>
        ⟨String.ofList (joinSlashes (trimVoidEnd (pieces.dropWhile isVoid)))⟩ := by
    rw [stripPrefix?, Text.characters_eq, head, components_of_isAbsolute rooted]
    simp
  cases dropped : dropComponents (stepComponents directory.bodyPieces) path.bodyPieces with
  | none => exact .inl ⟨by rw [strip, dropped]; rfl, fun begins => dropComponents_eq_none dropped begins.2⟩
  | some left =>
      obtain ⟨inside, split⟩ := dropComponents_eq_some dropped
      refine .inr ⟨_, by rw [strip, dropped]; rfl, ⟨rfl, split ▸ List.prefix_append _ _⟩, ?_⟩
      have kept : stepComponents (trimVoidEnd (left.dropWhile isVoid)) = stepComponents left := by
        rw [stepComponents, filter_trimVoidEnd, filter_dropWhile_isVoid, stepComponents]
      have whole : ∀ piece ∈ trimVoidEnd (left.dropWhile isVoid), piece ∈ path.bodyPieces := fun piece member =>
        inside.subset ((List.dropWhile_suffix _).subset (mem_of_mem_trimVoidEnd member))
      rw [steps_eq absolute, split, List.map_append, steps_eq rooted, steps_joinSlashes fun piece member =>
        separates_of_mem_splitWhere _ piece (whole piece member), kept]

/-! ## Spelling -/

/-- The steps that the canonical spelling of a path takes: a backslash parts names as a slash does. -/
def spelledSteps (path : Path) : List String :=
  (slashPieces path.text).map String.ofList

theorem pathNames_slashed (path : Path) : Disk.pathNames (slashed path.text) = path.spelledSteps := by
  rw [slashed, pathNames_joinSlashes fun _ => isPiece_of_mem_slashPieces, spelledSteps]

theorem spelledSteps_eq (plain : '\\' ∉ path.text.toList) : path.spelledSteps = path.steps := by
  rw [spelledSteps, ← names_filter_eq plain, steps]

end Path

namespace Project

variable {project : Project} {path : Path}

/-- What is spelled canonically of a path given by a user. -/
def below (project : Project) (path : Path) : Path :=
  if path.isAbsolute then (path.stripPrefix? project.workingDir).getD path else path

theorem canonicalSource_eq (project : Project) (path : Path) :
    project.canonicalSource path = Path.slashed (project.below path).text := rfl

/-- The file that is read stands where the spelled steps lead from the working directory. -/
theorem placeOf_canonicalSource (project : Project) (path : Path) :
    Disk.placeOf (project.workingDir.joinSlashed (project.canonicalSource path)) =
      Disk.resolve (Disk.placeOf project.workingDir) (project.below path).spelledSteps := by
  rw [Disk.placeOf, Path.pathNames_joinSlashed, Disk.resolve_append, ← Disk.placeOf, canonicalSource_eq,
    Path.pathNames_slashed]

/-- Where a path of a user leads: what is left of it goes on from the working directory, unless the path is
absolute and does not begin there. -/
theorem placeOf_join_cases (rooted : project.workingDir.isAbsolute = true) (path : Path) :
    ((path.isAbsolute = false ∨ project.workingDir.components <+: path.components) ∧
        Disk.placeOf (project.workingDir.join path) =
          Disk.resolve (Disk.placeOf project.workingDir) (project.below path).steps) ∨
      path.isAbsolute = true ∧ ¬ project.workingDir.components <+: path.components ∧
        project.below path = path ∧ project.workingDir.join path = path := by
  cases absolute : path.isAbsolute with
  | false =>
      refine .inl ⟨.inl rfl, ?_⟩
      rw [below, absolute, if_neg Bool.false_ne_true, Disk.placeOf, Path.pathNames_join absolute,
        Disk.resolve_append, ← Disk.placeOf, Path.steps, Disk.resolve_filter_dots]
  | true =>
      have joined : project.workingDir.join path = path := by rw [Path.join, absolute, if_pos rfl]
      rw [joined, below, absolute, if_pos rfl]
      rcases Path.stripPrefix?_cases absolute rooted with ⟨none, outside⟩ | ⟨rest, some, inside, steps⟩
      · exact .inr ⟨rfl, outside, by rw [none, Option.getD_none], rfl⟩
      · refine .inl ⟨.inr inside, ?_⟩
        rw [some, Option.getD_some, Path.placeOf_eq project.workingDir, Path.placeOf_eq path, steps,
          ← Disk.resolve_append]

/-- A path given by a user names the same file after it was spelled canonically exactly when it is relative or
begins with the working directory, and the backslashes in what is left of it make no difference, or it is absolute
and its spelled steps lead to its place from the working directory as well. Without backslashes they make none. -/
theorem canonicalSource_kept_iff (rooted : project.workingDir.isAbsolute = true) :
    let spelled := Disk.resolve (Disk.placeOf project.workingDir) (project.below path).spelledSteps
    let kept := Disk.placeOf (project.workingDir.joinSlashed (project.canonicalSource path)) =
      Disk.placeOf (project.workingDir.join path)
    (kept ↔
      (path.isAbsolute = false ∨ project.workingDir.components <+: path.components) ∧
          spelled = Disk.resolve (Disk.placeOf project.workingDir) (project.below path).steps ∨
        path.isAbsolute = true ∧ spelled = Disk.placeOf path) ∧
    ('\\' ∉ (project.below path).text.toList →
      (kept ↔ path.isAbsolute = false ∨ project.workingDir.components <+: path.components ∨
        Disk.resolve (Disk.placeOf project.workingDir) path.steps = Disk.placeOf path)) := by
  intro spelled kept
  have read : kept ↔ spelled = Disk.placeOf (project.workingDir.join path) := by
    simp only [kept, spelled, placeOf_canonicalSource]
  have plainly : '\\' ∉ (project.below path).text.toList →
      spelled = Disk.resolve (Disk.placeOf project.workingDir) (project.below path).steps := fun plain =>
    congrArg _ (Path.spelledSteps_eq plain)
  rw [read]
  rcases placeOf_join_cases rooted path with ⟨within, leads⟩ | ⟨absolute, outside, given, joined⟩
  · have absolutely : path.isAbsolute = true → Disk.placeOf path =
        Disk.resolve (Disk.placeOf project.workingDir) (project.below path).steps := fun absolute => by
      rw [← leads, Path.join, absolute, if_pos rfl]
    rw [leads]
    refine ⟨⟨fun same => .inl ⟨within, same⟩, ?_⟩, fun plain => ⟨fun _ => ?_, fun _ => plainly plain⟩⟩
    · rintro (⟨_, same⟩ | ⟨absolute, same⟩)
      · exact same
      · rw [same, absolutely absolute]
    · exact within.imp_right .inl
  · rw [joined]
    refine ⟨by simp [absolute, outside], fun plain => ?_⟩
    rw [plainly plain, given]
    simp [absolute, outside]

/-- A path in the working directory, written with repeated slashes and dots, and one with a backslash in a name. -/
theorem canonicalSource_kept_inside :
    let project : Project := ⟨⟨"/p/./q"⟩, {}, "", Syntax.parse⟩
    let kept := fun path => Disk.placeOf (project.workingDir.joinSlashed (project.canonicalSource path)) =
      Disk.placeOf (project.workingDir.join path)
    project.workingDir.isAbsolute = true ∧ '\\' ∉ (project.below ⟨"//p/q/./src/..//a.ts"⟩).text.toList ∧
    project.canonicalSource ⟨"//p/q/./src/..//a.ts"⟩ = "src/../a.ts" ∧ kept ⟨"//p/q/./src/..//a.ts"⟩ ∧
    project.canonicalSource ⟨"src\\a.ts"⟩ = "src/a.ts" ∧ ¬ kept ⟨"src\\a.ts"⟩ := by
  intro project kept
  have rooted : project.workingDir.isAbsolute = true := by decide +kernel
  have plain : '\\' ∉ (project.below ⟨"//p/q/./src/..//a.ts"⟩).text.toList := by decide +kernel
  have inside : project.workingDir.components <+: Path.components ⟨"//p/q/./src/..//a.ts"⟩ := by decide +kernel
  exact ⟨rooted, plain, by decide +kernel, ((canonicalSource_kept_iff rooted).2 plain).mpr (.inr (.inl inside)),
    by decide +kernel, mt (canonicalSource_kept_iff rooted).1.mp (by decide +kernel)⟩

/-- A path outside the working directory becomes one of a file inside it. -/
theorem canonicalSource_misses :
    let project : Project := ⟨⟨"/p"⟩, {}, "", Syntax.parse⟩
    project.workingDir.isAbsolute = true ∧ project.canonicalSource ⟨"/q/a.ts"⟩ = "q/a.ts" ∧
    Disk.placeOf (project.workingDir.joinSlashed (project.canonicalSource ⟨"/q/a.ts"⟩)) = ["p", "q", "a.ts"] ∧
    Disk.placeOf (project.workingDir.join ⟨"/q/a.ts"⟩) = ["q", "a.ts"] ∧
    Disk.placeOf (project.workingDir.joinSlashed (project.canonicalSource ⟨"/q/a.ts"⟩)) ≠
      Disk.placeOf (project.workingDir.join ⟨"/q/a.ts"⟩) := by
  decide +kernel

end Project

end TypedLiterals
