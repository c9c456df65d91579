import TypedLiterals.Proofs.Collision

/-!
Artifacts stay in their directories.

The file of an artifact never leads up, so the root segment decides where artifacts stand. A configuration
is accepted when the root segment never leads up as a path of the host, but the paths of artifacts split it
at backslashes too. Without backslashes both readings agree, and every artifact stands below its directory.
-/

namespace TypedLiterals

variable {project : Project} {hash source suffix logical text : String} {place base : Disk.Place}

/-- Whether a place is below another one. -/
def Disk.Below (base place : Disk.Place) : Prop :=
  base <+: place ∧ base ≠ place

instance (base place : Disk.Place) : Decidable (Disk.Below base place) :=
  inferInstanceAs (Decidable (base <+: place ∧ base ≠ place))

theorem Disk.below_append {rest : List String} (inside : base <+: place) (present : rest ≠ []) :
    Disk.Below base (place ++ rest) := by
  refine ⟨inside.trans (List.prefix_append _ _), fun same => ?_⟩
  have short := inside.length_le
  rw [same, List.length_append] at short
  have long := List.length_pos_iff.mpr present
  omega

/-! ## Readings of a path -/

namespace Path

/-- Where nothing is a backslash, canonical spelling keeps the pieces between slashes. -/
theorem slashPieces_eq (plain : '\\' ∉ text.toList) :
    slashPieces text = (splitWhere isSlash text.toList).filter (!isVoid ·) := by
  have same : ∀ letters : List Char, '\\' ∉ letters →
      splitWhere (fun character => character = '/' || character = '\\') letters = splitWhere isSlash letters := by
    intro letters plain
    induction letters with
    | nil => rfl
    | cons first rest ih =>
        have other : first ≠ '\\' := fun same => plain (by simp [same])
        have later := ih fun member => plain (List.mem_cons_of_mem _ member)
        simp only [splitWhere, later, isSlash, other, decide_false, Bool.or_false]
        rfl
  rw [slashPieces, Text.characters_eq, same _ plain]

/-- The names of a text without backslashes are the pieces of its canonical spelling, and dots. -/
theorem names_filter_eq (plain : '\\' ∉ text.toList) :
    (Disk.pathNames text).filter (· ≠ ".") = (slashPieces text).map String.ofList := by
  rw [slashPieces_eq plain, Disk.pathNames, Text.characters_eq, filter_dots]

theorem resolve_slashed (plain : '\\' ∉ text.toList) (place : Disk.Place) :
    Disk.resolve place (Disk.pathNames (slashed text)) = Disk.resolve place (Disk.pathNames text) := by
  rw [slashed, pathNames_joinSlashes fun _ => isPiece_of_mem_slashPieces, ← names_filter_eq plain,
    Disk.resolve_filter_dots]

theorem stepsOf_splitHead (text : List Char) : stepsOf (splitHead text).2 = stepsOf text := by
  fun_cases splitHead text with
  | case1 rest => simp [stepsOf, splitWhere, isSlash, isVoid]
  | case2 => rfl
  | case3 rest => simp [stepsOf, splitWhere, isSlash, isVoid]
  | case4 => rfl

/-- A root segment that the host reads as one that stays inside has no step up, when the host reads it as it is
spelled. -/
theorem level_of_staysInside (plain : '\\' ∉ text.toList) (inside : Config.staysInside ⟨text⟩ = true) :
    ['.', '.'] ∉ slashPieces text := by
  intro up
  rw [slashPieces_eq plain] at up
  have listed : Component.parent ∈ components ⟨text⟩ := by
    rw [components_eq, stepsOf_splitHead]
    exact List.mem_append_right _ (List.mem_map.mpr ⟨_, up, rfl⟩)
  rw [Config.staysInside, Bool.and_eq_true, List.all_eq_true] at inside
  exact absurd (inside.2 _ listed) (by decide)

end Path

/-! ## Places of artifacts -/

namespace Location

theorem plain_fileNames (level : ['.', '.'] ∉ Path.slashPieces logical) :
    ∀ name ∈ fileNames logical hash suffix, Disk.IsPlain name := by
  intro name member
  obtain ⟨piece, found, rfl⟩ := List.mem_map.mp member
  rcases Path.mem_extendLast found with inside | ⟨stem, _, rfl⟩
  · have notVoid := (Path.isPiece_of_mem_slashPieces inside).1
    refine ⟨Path.ofList_ne_dot notVoid, fun up => level ?_⟩
    rwa [String.ofList_injective up] at inside
  · have dash : '-' ∈ stem ++ ending hash suffix := List.mem_append_right _ List.mem_cons_self
    constructor <;> intro same <;> rw [String.ofList_injective same] at dash <;> exact absurd dash (by decide)

theorem level_sourceBelow {root : String} (inRoot : ['.', '.'] ∉ Path.slashPieces root)
    (inSource : ['.', '.'] ∉ Path.slashPieces source) :
    ['.', '.'] ∉ Path.slashPieces (sourceBelow root source) := by
  rw [slashPieces_sourceBelow]
  exact List.not_mem_append inRoot inSource

theorem resolve_level (level : ['.', '.'] ∉ Path.slashPieces logical) (base : Disk.Place) :
    Disk.resolve base (fileNames logical hash suffix) = base ++ fileNames logical hash suffix :=
  Disk.resolve_plain _ (plain_fileNames level)

end Location

namespace Project

open Location

theorem placeOf_module (project : Project) (source : String) (hex : Hexadecimal hash) :
    Disk.placeOf (project.location source hash).module =
      Disk.resolve (Disk.placeOf project.cacheDir)
        (fileNames (sourceBelow project.config.typesRootDir source) hash moduleSuffix) := by
  rw [Disk.placeOf, location, module_eq, Path.pathNames_joinSlashed,
    pathNames_artifactStem _ hex.present hex.plain isSuffix_module, Disk.resolve_append, Disk.placeOf]

theorem placeOf_declaration (project : Project) (source : String) (hex : Hexadecimal hash) :
    Disk.placeOf (project.location source hash).declaration =
      Disk.resolve (Disk.resolve (Disk.placeOf project.workingDir)
          (Disk.pathNames (Path.slashed project.declarationRelDir.text)))
        (fileNames (sourceBelow project.config.typesRootDir source) hash declarationSuffix) := by
  rw [Disk.placeOf, declaration_location, Path.pathNames_joinSlashed, declarationRel_location, pathNames_below,
    pathNames_artifactStem _ hex.present hex.plain isSuffix_declaration, Disk.resolve_append, Disk.resolve_append,
    Disk.placeOf]

theorem fileNames_below (project : Project) (descends : Path.Descends source) (suffix : String) :
    fileNames (sourceBelow project.config.typesRootDir source) hash suffix =
      project.rootNames ++ fileNames source hash suffix := by
  rw [fileNames, slashPieces_sourceBelow, Path.extendLast_append _ descends.1, List.map_append, rootNames, fileNames]

/-- A directory reads as canonical spelling has it when it is relative and has no backslash. -/
theorem placeOf_declarationDir (plain : '\\' ∉ project.declarationRelDir.text.toList)
    (relative : project.declarationRelDir.isAbsolute = false) :
    Disk.placeOf project.declarationDir = Disk.resolve (Disk.placeOf project.workingDir)
      (Disk.pathNames (Path.slashed project.declarationRelDir.text)) := by
  rw [Path.resolve_slashed plain, Disk.placeOf, declarationDir, Path.pathNames_join relative, Disk.resolve_append,
    Disk.placeOf]

/-- Artifacts stay below a directory exactly when the root segment leads to a place inside it. -/
theorem below_iff (project : Project) (base start : Disk.Place) (suffix : String) :
    (∀ source hash, Path.Descends source → Hexadecimal hash → Disk.Below base (Disk.resolve start
        (fileNames (sourceBelow project.config.typesRootDir source) hash suffix))) ↔
      base <+: Disk.resolve start project.rootNames := by
  have split : ∀ source hash, Path.Descends source →
      Disk.resolve start (fileNames (sourceBelow project.config.typesRootDir source) hash suffix) =
        Disk.resolve start project.rootNames ++ fileNames source hash suffix := by
    intro source hash descends
    rw [fileNames_below project descends, Disk.resolve_append, resolve_level descends.2]
  constructor
  · intro always
    have descends : Path.Descends "a" := by
      unfold Path.Descends
      decide +kernel
    obtain ⟨inside, apart⟩ := always "a" "0" descends ⟨by decide, List.forall_iff_forall_mem.mp (by decide)⟩
    rw [split _ _ descends] at inside apart
    -- The source has one piece, so all but the whole place is what the root segment leads to.
    exact (List.prefix_concat_iff.mp inside).resolve_left apart
  · intro inside source hash descends _
    rw [split source hash descends]
    exact Disk.below_append inside fileNames_ne_nil

theorem staysInside_of_validate (accepted : project.config.validate = .ok ()) :
    Config.staysInside ⟨project.config.typesRootDir⟩ = true := by
  unfold Config.validate at accepted
  split at accepted
  · cases accepted
  split at accepted
  · cases accepted
  split at accepted
  · cases accepted
  split at accepted
  · cases accepted
  split at accepted
  · cases accepted
  next inside => simpa using inside

theorem level_of_validate (accepted : project.config.validate = .ok ())
    (plain : '\\' ∉ project.config.typesRootDir.toList) :
    ['.', '.'] ∉ Path.slashPieces project.config.typesRootDir :=
  Path.level_of_staysInside plain (staysInside_of_validate accepted)

/-- Modules stand below the cache directory, and declarations below the declaration directory, exactly when the
root segment leads to a place inside it. An accepted root segment without backslashes does, for every source
without steps up, and so it does for declarations when their directory is relative and has no backslash. -/
theorem artifacts_contained (project : Project) (accepted : project.config.validate = .ok ()) :
    ((∀ source hash, Path.Descends source → Hexadecimal hash →
        Disk.Below (Disk.placeOf project.cacheDir) (Disk.placeOf (project.location source hash).module)) ↔
      Disk.placeOf project.cacheDir <+: Disk.resolve (Disk.placeOf project.cacheDir) project.rootNames) ∧
    ((∀ source hash, Path.Descends source → Hexadecimal hash →
        Disk.Below (Disk.placeOf project.declarationDir)
          (Disk.placeOf (project.location source hash).declaration)) ↔
      Disk.placeOf project.declarationDir <+: Disk.resolve (Disk.placeOf project.workingDir)
        (Disk.pathNames (Path.slashed project.declarationRelDir.text) ++ project.rootNames)) ∧
    ('\\' ∉ project.config.typesRootDir.toList → ∀ source hash, ['.', '.'] ∉ Path.slashPieces source →
      Hexadecimal hash →
        Disk.Below (Disk.placeOf project.cacheDir) (Disk.placeOf (project.location source hash).module) ∧
        ('\\' ∉ project.declarationRelDir.text.toList → project.declarationRelDir.isAbsolute = false →
          Disk.Below (Disk.placeOf project.declarationDir)
            (Disk.placeOf (project.location source hash).declaration))) := by
  refine ⟨?_, ?_, fun plain source hash level hex => ⟨?_, fun plainDir relative => ?_⟩⟩
  · rw [← below_iff project _ _ moduleSuffix]
    refine forall₄_congr fun source hash _ hex => ?_
    rw [placeOf_module project source hex]
  · rw [Disk.resolve_append, ← below_iff project _ _ declarationSuffix]
    refine forall₄_congr fun source hash _ hex => ?_
    rw [placeOf_declaration project source hex]
  · rw [placeOf_module project source hex, resolve_level (level_sourceBelow (level_of_validate accepted plain) level)]
    exact Disk.below_append (List.prefix_refl _) fileNames_ne_nil
  · rw [placeOf_declaration project source hex, placeOf_declarationDir plainDir relative,
      resolve_level (level_sourceBelow (level_of_validate accepted plain) level)]
    exact Disk.below_append (List.prefix_refl _) fileNames_ne_nil

/-- A project whose directories are written with dots and repeated slashes. -/
def dottedProject : Project :=
  ⟨⟨"/p"⟩, { entrypoint := ⟨".//d/./i.d.ts"⟩, cacheDir := ⟨"./c/"⟩, typesRootDir := "./t..//r" }, "", Syntax.parse⟩

theorem artifacts_contained_dotted :
    dottedProject.config.validate = .ok () ∧
    Disk.Below (Disk.placeOf dottedProject.cacheDir)
      (Disk.placeOf (dottedProject.location "..a/b.ts" "0").module) ∧
    Disk.Below (Disk.placeOf dottedProject.declarationDir)
      (Disk.placeOf (dottedProject.location "..a/b.ts" "0").declaration) := by
  have accepted : dottedProject.config.validate = .ok () := by decide +kernel
  have hex : Hexadecimal "0" := ⟨by decide, List.forall_iff_forall_mem.mp (by decide)⟩
  obtain ⟨module, declaration⟩ := (artifacts_contained dottedProject accepted).2.2 (by decide +kernel)
    "..a/b.ts" "0" (by decide +kernel) hex
  exact ⟨accepted, module, declaration (by decide +kernel) (by decide +kernel)⟩

/-- A project whose root segment is one name for the host, and leads up when it is split at backslashes. -/
def climbingProject : Project :=
  ⟨⟨"/p"⟩, { entrypoint := ⟨"d/i.d.ts"⟩, cacheDir := ⟨"c"⟩, typesRootDir := "..\\..\\x" }, "", Syntax.parse⟩

/-- An accepted configuration may put modules and declarations outside of their directories. -/
theorem artifacts_escape :
    climbingProject.config.validate = .ok () ∧ climbingProject.workingDir.isAbsolute = true ∧
    Path.Descends "a.ts" ∧ Hexadecimal "0" ∧
    Disk.placeOf (climbingProject.location "a.ts" "0").module = ["x", "a.ts-0.tsx"] ∧
    ¬ Disk.Below (Disk.placeOf climbingProject.cacheDir)
      (Disk.placeOf (climbingProject.location "a.ts" "0").module) ∧
    ¬ Disk.Below (Disk.placeOf climbingProject.declarationDir)
      (Disk.placeOf (climbingProject.location "a.ts" "0").declaration) := by
  refine ⟨by decide +kernel, by decide +kernel, ?_, ⟨by decide, List.forall_iff_forall_mem.mp (by decide)⟩,
    by decide +kernel, by decide +kernel, by decide +kernel⟩
  unfold Path.Descends
  decide +kernel

end Project

end TypedLiterals
