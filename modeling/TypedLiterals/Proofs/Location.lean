import TypedLiterals.Fingerprint
import TypedLiterals.Project
import TypedLiterals.Proofs.Path

/-!
Where artifacts stand.

The file of an artifact is named after its source and its fingerprint, and both can be read off from the
name. So different literals have different files, as long as no source leads up, and the two artifacts
of a literal differ in how their names end.
-/

namespace TypedLiterals

/-! ## Fingerprints -/

namespace Digest

/-- Whether a text has the length of a digest and could be a piece of a path. -/
def IsDigest (text : String) : Prop :=
  text.toList.length = 64 ∧ ∀ character ∈ text.toList, character ≠ '/' ∧ character ≠ '\\'

theorem length_hexDigits (count value : Nat) : (Sha256.hexDigits count value).length = count := by
  induction count generalizing value with
  | zero => rfl
  | succ count ih => rw [Sha256.hexDigits, List.length_append, ih, List.length_singleton]

theorem hexDigit_ne (value : Nat) : Sha256.hexDigit value ≠ '/' ∧ Sha256.hexDigit value ≠ '\\' := by
  by_cases small : value < 16
  · have all : ∀ digit : Fin 16, Sha256.hexDigit digit ≠ '/' ∧ Sha256.hexDigit digit ≠ '\\' := by decide
    exact all ⟨value, small⟩
  · rw [Sha256.hexDigit, List.getD, List.getElem?_eq_none (Nat.le_of_not_lt small)]
    decide

theorem ne_of_mem_hexDigits {count value : Nat} {character : Char}
    (member : character ∈ Sha256.hexDigits count value) : character ≠ '/' ∧ character ≠ '\\' := by
  induction count generalizing value with
  | zero => contradiction
  | succ count ih =>
      rcases List.mem_append.mp member with earlier | last
      · exact ih earlier
      · rw [List.mem_singleton.mp last]
        exact hexDigit_ne _

theorem isDigest_sha256 (message : List UInt8) : IsDigest (sha256 message) := by
  rw [IsDigest, sha256, String.toList_ofList]
  generalize Sha256.digest message = state
  constructor
  · simp [Sha256.State.toList, length_hexDigits]
  · intro character member
    obtain ⟨word, _, inside⟩ := List.mem_flatMap.mp member
    exact ne_of_mem_hexDigits inside

end Digest

theorem Digest.IsDigest.ne_nil {hash : String} (digest : Digest.IsDigest hash) : hash.toList ≠ [] :=
  List.ne_nil_of_length_pos (by rw [digest.1]; decide)

theorem isDigest_fingerprint (seed literal : String) : Digest.IsDigest (fingerprint seed literal) :=
  Digest.isDigest_sha256 _

/-! ## Names of artifacts -/

/-- Whether a source path names something and never leads up. -/
def Path.Descends (source : String) : Prop :=
  Path.slashPieces source ≠ [] ∧ ['.', '.'] ∉ Path.slashPieces source

namespace Location

/-- What stands behind the last piece of a source path in the name of an artifact. -/
def ending (hash suffix : String) : List Char :=
  '-' :: (hash.toList ++ suffix.toList)

/-- The names of an artifact below the first segment that all artifacts of its kind share. -/
def fileNames (source hash suffix : String) : List String :=
  (Path.extendLast (ending hash suffix) (Path.slashPieces source)).map String.ofList

variable {source other hash hash' suffix root : String}

/-- The endings of the artifacts hold no slash. -/
def IsSuffix (suffix : String) : Prop :=
  ∀ character ∈ suffix.toList, character ≠ '/' ∧ character ≠ '\\'

theorem isSuffix_module : IsSuffix moduleSuffix := by
  simp [IsSuffix, moduleSuffix]

theorem isSuffix_declaration : IsSuffix declarationSuffix := by
  simp [IsSuffix, declarationSuffix]

theorem isPiece_of_mem_extendLast (present : hash.toList ≠ [])
    (plain : ∀ character ∈ hash.toList, character ≠ '/' ∧ character ≠ '\\') (valid : IsSuffix suffix)
    {pieces : List (List Char)} (good : ∀ piece ∈ pieces, Path.IsPiece piece) :
    ∀ piece ∈ Path.extendLast (ending hash suffix) pieces, Path.IsPiece piece := by
  intro piece member
  rcases Path.mem_extendLast member with inside | ⟨stem, origin, rfl⟩
  · exact good piece inside
  · constructor
    · have long : 1 < (stem ++ ending hash suffix).length := by
        have filled := List.length_pos_iff.mpr present
        rw [List.length_append, ending, List.length_cons, List.length_append]
        omega
      rw [Path.isVoid, Bool.or_eq_false_iff, decide_eq_false_iff_not, decide_eq_false_iff_not]
      constructor
      · intro same
        rw [same] at long
        contradiction
      · intro same
        rw [same] at long
        exact absurd long (by decide)
    · intro character inside
      rcases List.mem_append.mp inside with inStem | inEnding
      · rcases origin with rfl | known
        · contradiction
        · exact (good stem known).2 character inStem
      · rcases List.mem_cons.mp inEnding with rfl | later
        · decide
        · rcases List.mem_append.mp later with inHash | inSuffix
          · exact plain character inHash
          · exact valid character inSuffix

theorem fileNames_ne_nil : fileNames source hash suffix ≠ [] := by
  rw [fileNames, ne_eq, List.map_eq_nil_iff]
  exact Path.extendLast_ne_nil

/-- No name of an artifact of a source that never leads up leads up itself. -/
theorem isPlain_of_mem_fileNames (descends : Path.Descends source) (digest : Digest.IsDigest hash) :
    ∀ name ∈ fileNames source hash suffix, Disk.IsPlain name := by
  intro name member
  obtain ⟨piece, found, rfl⟩ := List.mem_map.mp member
  have different : piece ≠ ['.'] ∧ piece ≠ ['.', '.'] := by
    rcases Path.mem_extendLast found with inside | ⟨stem, _, rfl⟩
    · constructor
      · rintro rfl
        have notVoid := (Path.isPiece_of_mem_slashPieces inside).1
        contradiction
      · rintro rfl
        exact descends.2 inside
    · have long : 2 < (stem ++ ending hash suffix).length := by
        rw [List.length_append, ending, List.length_cons, List.length_append, digest.1]
        omega
      constructor <;> intro same <;> rw [same] at long <;> exact absurd long (by decide)
  constructor <;> intro same
  · exact different.1 (String.ofList_injective same)
  · exact different.2 (String.ofList_injective same)

/-- Source and fingerprint can be read off from the names of an artifact. -/
theorem fileNames_injective (present : Path.slashPieces source ≠ [])
    (alsoPresent : Path.slashPieces other ≠ [])
    (digest : Digest.IsDigest hash) (alsoDigest : Digest.IsDigest hash')
    (same : fileNames source hash suffix = fileNames other hash' suffix) :
    Path.slashed source = Path.slashed other ∧ hash = hash' := by
  have pieces := (List.map_inj_right fun _ _ => String.ofList_injective).mp same
  have length : (ending hash suffix).length = (ending hash' suffix).length := by
    simp [ending, digest.1, alsoDigest.1]
  obtain ⟨sources, endings⟩ := Path.extendLast_injective present alsoPresent length pieces
  refine ⟨by rw [Path.slashed, sources, Path.slashed], ?_⟩
  rw [ending, ending, List.cons.injEq] at endings
  exact String.toList_injective (List.append_cancel_right endings.2)

theorem getLast_fileNames (source hash suffix : String) :
    ∃ front stem, fileNames source hash suffix = front ++ [String.ofList (stem ++ suffix.toList)] := by
  obtain ⟨front, stem, same⟩ := Path.exists_extendLast (ending hash suffix) (Path.slashPieces source)
  exact ⟨front.map String.ofList, stem ++ '-' :: hash.toList, by
    rw [fileNames, same, List.map_append, List.map_singleton, List.append_assoc, List.cons_append, ending]⟩

theorem slashPieces_sourceBelow (root source : String) :
    Path.slashPieces (sourceBelow root source) = Path.slashPieces root ++ Path.slashPieces source := by
  rw [sourceBelow]
  split
  · next empty =>
      have none : Path.slashPieces root = [] := by
        rw [← Path.slashPieces_slashed, empty]
        rfl
      rw [Path.slashPieces_slashed, none, List.nil_append]
  · rw [Path.slashPieces_append_slash, Path.slashPieces_slashed, Path.slashPieces_slashed]

/-- The text that an artifact is called by spells the pieces of its source path, the last one extended. -/
theorem pathNames_artifactStem (logical : String) (present : hash.toList ≠ [])
    (plain : ∀ character ∈ hash.toList, character ≠ '/' ∧ character ≠ '\\') (valid : IsSuffix suffix) :
    Disk.pathNames (artifactStem logical hash ++ suffix) = fileNames logical hash suffix := by
  have text : artifactStem logical hash ++ suffix =
      String.ofList (Path.joinSlashes (Path.extendLast (ending hash suffix) (Path.slashPieces logical))) := by
    rw [← Path.joinSlashes_append, ← String.toList_inj]
    simp [artifactStem, Path.slashed, ending]
  rw [text, Path.pathNames_joinSlashes
    (isPiece_of_mem_extendLast present plain valid fun _ => Path.isPiece_of_mem_slashPieces), fileNames]

theorem pathNames_stem (present : Path.slashPieces source ≠ []) (digest : Digest.IsDigest hash)
    (valid : IsSuffix suffix) :
    Disk.pathNames (artifactStem (sourceBelow root source) hash ++ suffix) =
      (Path.slashPieces root).map String.ofList ++ fileNames source hash suffix := by
  rw [pathNames_artifactStem _ digest.ne_nil digest.2 valid, fileNames, slashPieces_sourceBelow,
    Path.extendLast_append _ present, List.map_append, fileNames]

end Location

namespace Project

open Location

/-- The names of the first segment of all artifacts. -/
def rootNames (project : Project) : List String :=
  (Path.slashPieces project.config.typesRootDir).map String.ofList

/-- The names of a typed module below the cache directory. -/
def moduleNames (project : Project) (source hash : String) : List String :=
  project.rootNames ++ fileNames source hash moduleSuffix

/-- The names of a declaration below the working directory. -/
def declarationNames (project : Project) (source hash : String) : List String :=
  Disk.pathNames (Path.slashed project.declarationRelDir.text) ++
    (project.rootNames ++ fileNames source hash declarationSuffix)

variable {source hash : String}

theorem pathNames_module (project : Project) (present : Path.slashPieces source ≠ [])
    (digest : Digest.IsDigest hash) :
    Disk.pathNames (project.location source hash).module.text =
      Disk.pathNames project.cacheDir.text ++ project.moduleNames source hash := by
  rw [location, ofLiteral, Path.pathNames_joinSlashed, pathNames_stem present digest isSuffix_module,
    moduleNames, rootNames]

theorem declarationRel_location (project : Project) (source hash : String) :
    (project.location source hash).declarationRel =
      if Path.slashed project.declarationRelDir.text = "" then
        artifactStem (sourceBelow project.config.typesRootDir source) hash ++ declarationSuffix
      else
        Path.slashed project.declarationRelDir.text ++ "/" ++
          (artifactStem (sourceBelow project.config.typesRootDir source) hash ++ declarationSuffix) := by
  rw [location, ofLiteral]

theorem declaration_location (project : Project) (source hash : String) :
    (project.location source hash).declaration =
      project.workingDir.joinSlashed (project.location source hash).declarationRel := by
  rw [location, ofLiteral]

theorem pathNames_below (dir name : String) :
    Disk.pathNames (if dir = "" then name else dir ++ "/" ++ name) =
      Disk.pathNames dir ++ Disk.pathNames name := by
  split
  · next empty =>
      subst empty
      rfl
  · exact Path.pathNames_append_slash dir name

theorem pathNames_declarationRel (project : Project) (present : Path.slashPieces source ≠ [])
    (digest : Digest.IsDigest hash) :
    Disk.pathNames (project.location source hash).declarationRel = project.declarationNames source hash := by
  rw [declarationRel_location, pathNames_below, pathNames_stem present digest isSuffix_declaration,
    declarationNames, rootNames]

theorem pathNames_declaration (project : Project) (present : Path.slashPieces source ≠ [])
    (digest : Digest.IsDigest hash) :
    Disk.pathNames (project.location source hash).declaration.text =
      Disk.pathNames project.workingDir.text ++ project.declarationNames source hash := by
  rw [declaration_location, Path.pathNames_joinSlashed, pathNames_declarationRel project present digest]

/-! ## Places of artifacts -/

/-- The places of both artifacts, from those of the cache directory and of the working directory. -/
def artifactPlaces (project : Project) (cacheBase workBase : Disk.Place) (source hash : String) :
    List Disk.Place :=
  [Disk.resolve cacheBase (project.moduleNames source hash),
    Disk.resolve workBase (project.declarationNames source hash)]

/-- The last letter of the last name of a place. -/
def lastLetter (place : Disk.Place) : Option Char :=
  place.getLast?.bind fun name => name.toList.getLast?

theorem resolve_fileNames (base : Disk.Place) (front : List String) (suffix : String)
    (descends : Path.Descends source) (digest : Digest.IsDigest hash) :
    Disk.resolve base (front ++ fileNames source hash suffix) =
      Disk.resolve base front ++ fileNames source hash suffix := by
  rw [Disk.resolve_append, Disk.resolve_plain _ (isPlain_of_mem_fileNames descends digest)]

theorem lastLetter_fileNames (place : Disk.Place) (source hash : String) {suffix : String} {letter : Char}
    (last : suffix.toList.getLast? = some letter) :
    lastLetter (place ++ fileNames source hash suffix) = some letter := by
  obtain ⟨front, stem, same⟩ := getLast_fileNames source hash suffix
  rw [same, ← List.append_assoc, lastLetter, List.getLast?_concat, Option.bind_some, String.toList_ofList,
    List.getLast?_append, last]
  rfl

variable {project : Project} {cacheBase workBase place : Disk.Place} {other hash' : String}

theorem mem_artifactPlaces (descends : Path.Descends source) (digest : Digest.IsDigest hash) :
    place ∈ project.artifactPlaces cacheBase workBase source hash ↔
      place = Disk.resolve cacheBase project.rootNames ++ fileNames source hash moduleSuffix ∨
      place = Disk.resolve workBase (Disk.pathNames (Path.slashed project.declarationRelDir.text) ++
        project.rootNames) ++ fileNames source hash declarationSuffix := by
  rw [artifactPlaces, moduleNames, declarationNames, ← List.append_assoc,
    resolve_fileNames _ _ _ descends digest, resolve_fileNames _ _ _ descends digest, List.mem_pair]

theorem lastLetter_of_mem_artifactPlaces (descends : Path.Descends source) (digest : Digest.IsDigest hash)
    (member : place ∈ project.artifactPlaces cacheBase workBase source hash) :
    lastLetter place = some 'x' ∨ lastLetter place = some 's' := by
  rw [mem_artifactPlaces descends digest] at member
  have module : moduleSuffix.toList.getLast? = some 'x' := by decide
  have declaration : declarationSuffix.toList.getLast? = some 's' := by decide
  refine member.imp (fun same => ?_) fun same => ?_
  · rw [same]
    exact lastLetter_fileNames _ _ _ module
  · rw [same]
    exact lastLetter_fileNames _ _ _ declaration

/-- Artifacts of different literals stand at different places. -/
theorem eq_of_mem_artifactPlaces (descends : Path.Descends source) (alsoDescends : Path.Descends other)
    (digest : Digest.IsDigest hash) (alsoDigest : Digest.IsDigest hash')
    (member : place ∈ project.artifactPlaces cacheBase workBase source hash)
    (alsoMember : place ∈ project.artifactPlaces cacheBase workBase other hash') :
    Path.slashed source = Path.slashed other ∧ hash = hash' := by
  rw [mem_artifactPlaces descends digest] at member
  rw [mem_artifactPlaces alsoDescends alsoDigest] at alsoMember
  have module : moduleSuffix.toList.getLast? = some 'x' := by decide
  have declaration : declarationSuffix.toList.getLast? = some 's' := by decide
  have different : ∀ front back source hash other hash',
      front ++ fileNames source hash moduleSuffix ≠ back ++ fileNames other hash' declarationSuffix := by
    intro front back source hash other hash' same
    have letters := lastLetter_fileNames front source hash module
    rw [same, lastLetter_fileNames back other hash' declaration] at letters
    exact absurd letters (by decide)
  cases member with
  | inl same =>
      cases alsoMember with
      | inl also =>
          rw [same] at also
          exact fileNames_injective descends.1 alsoDescends.1 digest alsoDigest (List.append_cancel_left also)
      | inr also => exact absurd (same.symm.trans also) (different _ _ _ _ _ _)
  | inr same =>
      cases alsoMember with
      | inl also => exact absurd (also.symm.trans same) (different _ _ _ _ _ _)
      | inr also =>
          rw [same] at also
          exact fileNames_injective descends.1 alsoDescends.1 digest alsoDigest (List.append_cancel_left also)

end Project

end TypedLiterals
