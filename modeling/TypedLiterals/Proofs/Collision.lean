import TypedLiterals.Proofs.Recognition

/-!
Artifacts of different literals have different paths.

A fingerprint holds no dash, so the last dash in the name of an artifact tells where its fingerprint begins.
The directories that a path is joined from come back as its components, so nothing is lost on the way from
source and fingerprint to a path.
-/

namespace TypedLiterals

variable {hash hash' source other root suffix : String} {declarationDir cacheDir workingDir : Path}

/-! ## Components of joined paths -/

namespace Path

variable {front back : List Char} {pieces : List (List Char)}

/-- What the pieces of a text are as components of a path. -/
def stepsOf (text : List Char) : List Component :=
  ((splitWhere isSlash text).filter (!isVoid ·)).map pieceComponent

theorem stepsOf_append_slash (front back : List Char) :
    stepsOf (front ++ '/' :: back) = stepsOf front ++ stepsOf back := by
  rw [stepsOf, splitWhere_append back isSlash_slash, List.filter_append, List.map_append, stepsOf, stepsOf]

theorem splitHead_append_slash (present : front ≠ []) (back : List Char) :
    splitHead (front ++ '/' :: back) = ((splitHead front).1, (splitHead front).2 ++ '/' :: back) := by
  fun_cases splitHead front with
  | case1 => rfl
  | case2 => rfl
  | case3 => rfl
  | case4 _ notRoot notDot notCurrent =>
      obtain ⟨first, rest, rfl⟩ := List.exists_cons_of_ne_nil present
      refine splitHead.eq_4 _ (fun more same => notRoot rest ?_) (fun same => ?_) fun more same => ?_
      · rw [(List.cons.inj same).1]
      · obtain ⟨_, none⟩ := List.cons.inj same
        exact List.append_ne_nil_of_right_ne_nil _ (List.cons_ne_nil _ _) none
      · obtain ⟨rfl, tail⟩ := List.cons.inj same
        cases rest with
        | nil => exact notDot rfl
        | cons second others => exact notCurrent others (by rw [(List.cons.inj tail).1])

theorem components_eq (path : Path) :
    path.components = headComponent (splitHead path.text.toList).1 ++ stepsOf (splitHead path.text.toList).2 := by
  rw [components, bodyPieces, Text.characters_eq, stepsOf]

theorem components_append_slash (present : front ≠ []) (back : List Char) :
    components ⟨String.ofList (front ++ '/' :: back)⟩ = components ⟨String.ofList front⟩ ++ stepsOf back := by
  rw [components_eq, components_eq, String.toList_ofList, String.toList_ofList, splitHead_append_slash present,
    stepsOf_append_slash, List.append_assoc]

theorem stepsOf_name {name : List Char} (isName : IsName name) (named : isVoid name = false) :
    stepsOf name = [pieceComponent name] := by
  rw [stepsOf, splitWhere_of_none isName.2]
  simp [named]

theorem components_name {name : List Char} (isName : IsName name) (named : isVoid name = false) :
    components ⟨String.ofList name⟩ = [pieceComponent name] := by
  obtain ⟨first, rest, rfl⟩ := List.exists_cons_of_ne_nil isName.1
  have head : splitHead (first :: rest) = ([], first :: rest) := by
    refine splitHead.eq_4 _ (fun more same => ?_) (fun same => ?_) fun more same => ?_
    · have slash := isName.2 '/' (by rw [same]; exact List.mem_cons_self)
      cases slash
    · rw [same] at named
      cases named
    · have slash := isName.2 '/' (by rw [same]; simp)
      cases slash
  rw [components_eq, String.toList_ofList, head, stepsOf_name isName named]
  rfl

/-- Joining a name adds a component. -/
theorem components_join_name (base : Path) {name : List Char} (isName : IsName name) (named : isVoid name = false) :
    (base.join ⟨String.ofList name⟩).components = base.components ++ [pieceComponent name] := by
  obtain ⟨text⟩ := base
  obtain ⟨front, rfl⟩ : ∃ front, text = String.ofList front := ⟨_, String.ofList_toList.symm⟩
  have step := stepsOf_name isName named
  rw [join, isAbsolute_name isName, if_neg Bool.false_ne_true]
  split
  · next ends =>
    rcases Bool.or_eq_true_iff.mp ends with empty | slash
    · have none : front = [] := by simpa using empty
      subst none
      simpa [components_eq, splitHead, headComponent, stepsOf, splitWhere, isVoid] using components_name isName named
    · -- The slash at the end of the base is the one that separates the name.
      obtain ⟨before, rfl⟩ := List.getLast?_eq_some_iff.mp (show front.getLast? = some '/' by simpa using slash)
      have whole : String.ofList (before ++ ['/']) ++ String.ofList name =
          String.ofList (before ++ '/' :: name) := by
        apply String.toList_injective
        simp
      rw [whole]
      cases before with
      | nil =>
          rw [components_eq, components_eq, String.toList_ofList, String.toList_ofList]
          change [Component.root] ++ stepsOf name = [Component.root] ++ stepsOf [] ++ _
          rw [step]
          rfl
      | cons first rest =>
          rw [components_append_slash (List.cons_ne_nil _ _), components_append_slash (List.cons_ne_nil _ _), step]
          simp [stepsOf, splitWhere, isVoid]
  · next plain =>
    have present : front ≠ [] := by
      rintro rfl
      simp at plain
    have whole : String.ofList front ++ "/" ++ String.ofList name = String.ofList (front ++ '/' :: name) := by
      apply String.toList_injective
      simp
    rw [whole, components_append_slash present, step]

/-- Joining a canonical text adds its pieces as components. -/
theorem components_joinSlashed (base : Path) (valid : ∀ piece ∈ pieces, IsPiece piece) :
    (base.joinSlashed (String.ofList (joinSlashes pieces))).components =
      base.components ++ pieces.map pieceComponent := by
  have split : namePieces (String.ofList (joinSlashes pieces)) = pieces := by
    have names := pathNames_joinSlashes valid
    rw [pathNames_eq] at names
    exact (List.map_inj_right fun _ _ => String.ofList_injective).mp names
  have names : ∀ piece ∈ pieces, IsName piece := by
    rw [← split]
    exact isName_of_mem_namePieces
  rw [joinSlashed_eq, split]
  clear split
  induction pieces generalizing base with
  | nil => simp
  | cons piece later ih =>
      rw [List.foldl_cons, ih _ (fun other member => valid other (List.mem_cons_of_mem _ member))
          (fun other member => names other (List.mem_cons_of_mem _ member)),
        components_join_name base (names piece List.mem_cons_self) (valid piece List.mem_cons_self).1,
        List.map_cons, List.append_assoc, List.singleton_append]

theorem joinSlashes_pair {others : List (List Char)} (present : pieces ≠ []) (alsoPresent : others ≠ []) :
    joinSlashes pieces ++ '/' :: joinSlashes others = joinSlashes (pieces ++ others) := by
  induction pieces with
  | nil => contradiction
  | cons piece later ih =>
      by_cases last : later = []
      · subst last
        rw [List.singleton_append, joinSlashes_cons piece alsoPresent]
        simp [joinSlashes]
      · rw [joinSlashes_cons piece last, List.cons_append, joinSlashes_cons piece (by simp [last]), ← ih last,
          List.append_assoc, List.cons_append]

theorem pieceComponent_injective : Function.Injective pieceComponent := by
  intro piece other same
  unfold pieceComponent at same
  split at same <;> split at same
  · next up also => rw [up, also]
  · cases same
  · cases same
  · exact String.ofList_injective (Component.name.inj same)

end Path

/-! ## Names of artifacts -/

theorem Hexadecimal.dashless (hex : Hexadecimal hash) : '-' ∉ hash.toList :=
  fun member => absurd (hex.digits _ member) (by decide)

theorem eq_of_append_dash {front front' tail tail' : List Char} (plain : '-' ∉ tail) (alsoPlain : '-' ∉ tail')
    (same : front ++ '-' :: tail = front' ++ '-' :: tail') : front = front' ∧ tail = tail' := by
  have reversed := congrArg List.reverse same
  rw [List.reverse_append, List.reverse_append, List.reverse_cons, List.reverse_cons, List.append_assoc,
    List.append_assoc, List.singleton_append, List.singleton_append] at reversed
  rcases List.append_eq_append_iff.mp reversed with ⟨more, ends, rest⟩ | ⟨more, ends, rest⟩ <;> cases more with
  | nil => simp_all
  | cons first later =>
      obtain ⟨rfl, _⟩ := List.cons.inj rest
      have inside : '-' ∈ (_ : List Char) := ends ▸ List.mem_append_right _ List.mem_cons_self
      simp_all

namespace Location

/-- The pieces of the name of an artifact. -/
def filePieces (logical hash suffix : String) : List (List Char) :=
  Path.extendLast (ending hash suffix) (Path.slashPieces logical)

theorem isPiece_filePieces (logical : String) (hex : Hexadecimal hash) (valid : IsSuffix suffix) :
    ∀ piece ∈ filePieces logical hash suffix, Path.IsPiece piece :=
  isPiece_of_mem_extendLast hex.present hex.plain valid fun _ => Path.isPiece_of_mem_slashPieces

theorem stem_eq (logical hash suffix : String) :
    artifactStem logical hash ++ suffix = String.ofList (Path.joinSlashes (filePieces logical hash suffix)) := by
  rw [filePieces, ← Path.joinSlashes_append, ← String.toList_inj]
  simp [artifactStem, Path.slashed, ending]

/-- Source and fingerprint can be read off from the pieces of the name of an artifact. -/
theorem filePieces_injective (hex : Hexadecimal hash) (alsoHex : Hexadecimal hash')
    (same : filePieces (sourceBelow root source) hash suffix = filePieces (sourceBelow root other) hash' suffix) :
    Path.slashed source = Path.slashed other ∧ hash = hash' := by
  have texts := congrArg Path.joinSlashes same
  rw [filePieces, filePieces, ← Path.joinSlashes_append, ← Path.joinSlashes_append, ending, ending,
    ← List.cons_append, ← List.cons_append, ← List.append_assoc, ← List.append_assoc] at texts
  obtain ⟨fronts, hashes⟩ := eq_of_append_dash hex.dashless alsoHex.dashless (List.append_cancel_right texts)
  have pieces : Path.slashPieces (sourceBelow root source) = Path.slashPieces (sourceBelow root other) := by
    have valid : ∀ source, ∀ piece ∈ Path.slashPieces (sourceBelow root source), Path.IsPiece piece :=
      fun _ _ => Path.isPiece_of_mem_slashPieces
    rw [← Path.slashPieces_joinSlashes (valid source), fronts, Path.slashPieces_joinSlashes (valid other)]
  rw [slashPieces_sourceBelow, slashPieces_sourceBelow] at pieces
  refine ⟨?_, String.toList_injective hashes⟩
  rw [Path.slashed, List.append_cancel_left pieces, Path.slashed]

/-! ## Paths of artifacts -/

variable (root source : String) (declarationDir cacheDir workingDir : Path)

theorem module_eq (logical hash : String) :
    (ofLiteral logical hash declarationDir cacheDir workingDir).module =
      cacheDir.joinSlashed (artifactStem logical hash ++ moduleSuffix) := by
  rw [ofLiteral]

theorem declaration_eq (logical hash : String) :
    (ofLiteral logical hash declarationDir cacheDir workingDir).declaration =
      workingDir.joinSlashed (ofLiteral logical hash declarationDir cacheDir workingDir).declarationRel := by
  rw [ofLiteral]

theorem components_module (logical : String) (hex : Hexadecimal hash) :
    (ofLiteral logical hash declarationDir cacheDir workingDir).module.components =
      cacheDir.components ++ (filePieces logical hash moduleSuffix).map Path.pieceComponent := by
  rw [module_eq, stem_eq]
  exact Path.components_joinSlashed _ (isPiece_filePieces _ hex isSuffix_module)

theorem declarationRel_eq (logical hash : String) :
    (ofLiteral logical hash declarationDir cacheDir workingDir).declarationRel =
      String.ofList (Path.joinSlashes (Path.slashPieces declarationDir.text ++
        filePieces logical hash declarationSuffix)) := by
  rw [ofLiteral, stem_eq]
  split
  · next empty =>
    have none : Path.slashPieces declarationDir.text = [] := by
      rw [← Path.slashPieces_slashed, empty]
      rfl
    rw [none, List.nil_append]
  · next present =>
    have some : Path.slashPieces declarationDir.text ≠ [] := fun none =>
      present (by rw [Path.slashed, none]; rfl)
    rw [Path.slashed, filePieces, ← Path.joinSlashes_pair some Path.extendLast_ne_nil]
    apply String.toList_injective
    simp

theorem isPiece_declaration (logical : String) (hex : Hexadecimal hash) :
    ∀ piece ∈ Path.slashPieces declarationDir.text ++ filePieces logical hash declarationSuffix,
      Path.IsPiece piece := by
  intro piece member
  rcases List.mem_append.mp member with inDir | inFile
  · exact Path.isPiece_of_mem_slashPieces inDir
  · exact isPiece_filePieces logical hex isSuffix_declaration piece inFile

theorem components_declaration (logical : String) (hex : Hexadecimal hash) :
    (ofLiteral logical hash declarationDir cacheDir workingDir).declaration.components =
      workingDir.components ++ (Path.slashPieces declarationDir.text ++
        filePieces logical hash declarationSuffix).map Path.pieceComponent := by
  rw [declaration_eq, declarationRel_eq]
  exact Path.components_joinSlashed _ (isPiece_declaration declarationDir logical hex)

theorem pieces_of_components {base : List Path.Component} {pieces others : List (List Char)}
    (same : base ++ pieces.map Path.pieceComponent = base ++ others.map Path.pieceComponent) : pieces = others :=
  (List.map_inj_right fun _ _ => (Path.pieceComponent_injective ·)).mp (List.append_cancel_left same)

theorem lastPiece_filePieces (logical hash suffix : String) (front : List (List Char)) :
    ∃ stem, (front ++ filePieces logical hash suffix).getLast? = some (stem ++ suffix.toList) := by
  obtain ⟨before, stem, same⟩ := Path.exists_extendLast (ending hash suffix) (Path.slashPieces logical)
  refine ⟨stem ++ '-' :: hash.toList, ?_⟩
  rw [filePieces, same, ← List.append_assoc, List.getLast?_concat, ending, List.append_assoc, List.cons_append]

/-- No module has the path of a declaration, whatever the directories are. -/
theorem components_module_ne_declaration (hex : Hexadecimal hash) (alsoHex : Hexadecimal hash')
    (logical logical' : String) (declarationDir' cacheDir' workingDir' : Path) :
    (ofLiteral logical hash declarationDir cacheDir workingDir).module.components ≠
      (ofLiteral logical' hash' declarationDir' cacheDir' workingDir').declaration.components := by
  intro same
  rw [components_module _ _ _ _ hex, components_declaration _ _ _ _ alsoHex] at same
  obtain ⟨stem, module⟩ := lastPiece_filePieces logical hash moduleSuffix []
  obtain ⟨stem', declaration⟩ := lastPiece_filePieces logical' hash' declarationSuffix
    (Path.slashPieces declarationDir'.text)
  have lasts := congrArg List.getLast? same
  rw [List.nil_append] at module
  rw [List.getLast?_append, List.getLast?_append, List.getLast?_map, List.getLast?_map, module, declaration,
    Option.map_some, Option.map_some, Option.some_or, Option.some_or, Option.some.injEq] at lasts
  have letters := congrArg List.getLast? (Path.pieceComponent_injective lasts)
  have x : moduleSuffix.toList.getLast? = some 'x' := by decide
  have s : declarationSuffix.toList.getLast? = some 's' := by decide
  rw [List.getLast?_append, List.getLast?_append, x, s, Option.some_or, Option.some_or] at letters
  exact absurd letters (by decide)

/-- Different literals never share the path of a module or of a declaration, however their sources and
fingerprints end, and no module has the path of a declaration. Spellings of one source share both paths. -/
theorem artifact_paths_distinct (hex : Hexadecimal hash) (alsoHex : Hexadecimal hash') :
    let one := ofLiteral (sourceBelow root source) hash declarationDir cacheDir workingDir
    let two := ofLiteral (sourceBelow root other) hash' declarationDir cacheDir workingDir
    (one.module.components = two.module.components ∨ one.declarationRel = two.declarationRel ∨
        one.declaration.components = two.declaration.components →
      Path.slashed source = Path.slashed other ∧ hash = hash') ∧
    (Path.slashed source = Path.slashed other → hash = hash' → one = two) ∧
    one.module.components ≠ two.declaration.components := by
  intro one two
  refine ⟨?_, ?_, components_module_ne_declaration _ _ _ hex alsoHex _ _ _ _ _⟩
  · rintro (modules | relatives | declarations)
    · rw [components_module _ _ _ _ hex, components_module _ _ _ _ alsoHex] at modules
      exact filePieces_injective hex alsoHex (pieces_of_components modules)
    · rw [declarationRel_eq, declarationRel_eq] at relatives
      have pieces := congrArg Path.slashPieces relatives
      rw [Path.slashPieces_joinSlashes (isPiece_declaration declarationDir _ hex),
        Path.slashPieces_joinSlashes (isPiece_declaration declarationDir _ alsoHex)] at pieces
      exact filePieces_injective hex alsoHex (List.append_cancel_left pieces)
    · rw [components_declaration _ _ _ _ hex, components_declaration _ _ _ _ alsoHex] at declarations
      exact filePieces_injective hex alsoHex (List.append_cancel_left (pieces_of_components declarations))
  · rintro canonical rfl
    have logical : sourceBelow root source = sourceBelow root other := by
      rw [sourceBelow, sourceBelow, canonical]
    exact congrArg (ofLiteral · hash declarationDir cacheDir workingDir) logical

theorem artifact_paths_distinct_dashed :
    Hexadecimal "0F" ∧ Hexadecimal "f" ∧
      (ofLiteral (sourceBelow "t" "a-f.tsx-0F") "f" ⟨"/p/c"⟩ ⟨"/p/c"⟩ ⟨"/"⟩).module.components ≠
        (ofLiteral (sourceBelow "t" "a-f.tsx") "0F" ⟨"/p/c"⟩ ⟨"/p/c"⟩ ⟨"/"⟩).module.components ∧
      ofLiteral (sourceBelow "t" ".\\a-f.tsx") "0F" ⟨"/p/c"⟩ ⟨"/p/c"⟩ ⟨"/"⟩ =
        ofLiteral (sourceBelow "t" "a-f.tsx") "0F" ⟨"/p/c"⟩ ⟨"/p/c"⟩ ⟨"/"⟩ := by
  have upper : Hexadecimal "0F" := ⟨by decide, List.forall_iff_forall_mem.mp (by decide)⟩
  have lower : Hexadecimal "f" := ⟨by decide, List.forall_iff_forall_mem.mp (by decide)⟩
  have spelled : Path.slashed ".\\a-f.tsx" = Path.slashed "a-f.tsx" := by decide +kernel
  refine ⟨upper, lower, fun modules => ?_, ?_⟩
  · have same := (artifact_paths_distinct "t" _ ⟨"/p/c"⟩ ⟨"/p/c"⟩ ⟨"/"⟩ lower upper).1 (.inl modules)
    exact absurd same.2 (by decide)
  · exact (artifact_paths_distinct "t" _ ⟨"/p/c"⟩ ⟨"/p/c"⟩ ⟨"/"⟩ upper upper).2.1 spelled rfl

end Location

end TypedLiterals
