import TypedLiterals.Proofs.Graphql.Normal
import TypedLiterals.Proofs.Location
import TypedLiterals.Seed

/-!
What the seed tells of the schema files.

A zero byte closes every path and the contents of every file. Paths have none, but contents may, and these look
like the end of a file: the seed tells lists of files apart by what stands between zero bytes. So it is the same
for two lists exactly when one is the other with its bytes shared out in another way, and it changes whenever one
file alone does.
-/

namespace TypedLiterals

/-- Two seeds of one length have no fingerprint in common, apart from messages that the digest does not tell
apart. -/
theorem fingerprint_eq_fingerprint_iff {seed changed : String} (sizes : seed.toList.length = changed.toList.length)
    (literal other : String) : fingerprint seed literal = fingerprint changed other ↔
      (seed = changed ∧ Graphql.normalize literal = Graphql.normalize other) ∨
        Digest.Collide (fingerprintMessage seed literal) (fingerprintMessage changed other) := by
  have messages : fingerprintMessage seed literal = fingerprintMessage changed other ↔
      seed = changed ∧ Graphql.normalize literal = Graphql.normalize other := by
    rw [fingerprintMessage, fingerprintMessage, ← textBytes_append, ← textBytes_append]
    constructor
    · intro same
      have texts := congrArg String.toList (textBytes_injective same)
      rw [String.toList_append, String.toList_append] at texts
      obtain ⟨seeds, normals⟩ := List.append_inj texts sizes
      exact ⟨String.toList_injective seeds, String.toList_injective normals⟩
    · rintro ⟨rfl, same⟩
      rw [same]
  rw [← messages]
  exact Digest.sha256_eq_iff

namespace Seed

variable {file changed : Path × List UInt8} {files others front back : List (Path × List UInt8)}

/-- The bytes that the seed is the digest of. -/
def message (files : List (Path × List UInt8)) : List UInt8 :=
  files.flatMap fun file => fileBytes file.1 file.2

/-- What stands between the zero bytes of the message: the paths, and the pieces of the contents. -/
def pieces (files : List (Path × List UInt8)) : List (List UInt8) :=
  files.flatMap fun file => textBytes file.1.text :: file.2.splitOn 0

/-- The number of zero bytes in the contents of each file. -/
def zeroBytes (files : List (Path × List UInt8)) : List Nat :=
  files.map fun file => file.2.count 0

/-- Paths as files have them: no zero byte can stand in one. -/
def Named (files : List (Path × List UInt8)) : Prop :=
  ∀ file ∈ files, 0 ∉ textBytes file.1.text

theorem pieces_append (front back : List (Path × List UInt8)) :
    pieces (front ++ back) = pieces front ++ pieces back :=
  List.flatMap_append

theorem message_cons (file : Path × List UInt8) (files : List (Path × List UInt8)) :
    message (file :: files) = textBytes file.1.text ++ 0 :: (file.2 ++ 0 :: message files) := by
  simp [message, fileBytes]

/-- Cut at its zero bytes a message falls into its pieces and an empty end. -/
theorem splitOn_message (named : Named files) : (message files).splitOn 0 = pieces files ++ [[]] := by
  induction files with
  | nil => rfl
  | cons file files ih =>
      have pathNamed := named file List.mem_cons_self
      rw [message_cons, List.splitOn_append_cons_self, List.splitOn_append_cons_self,
        List.splitOn_eq_singleton pathNamed, ih fun other member => named other (List.mem_cons_of_mem _ member)]
      simp [pieces]

theorem splitOn_injective : Function.Injective (List.splitOn (0 : UInt8)) :=
  (show Function.LeftInverse (List.intercalate [0]) (List.splitOn (0 : UInt8)) from
    fun _ => List.intercalate_splitOn 0).injective

theorem message_eq_iff (named : Named files) (othersNamed : Named others) :
    message files = message others ↔ pieces files = pieces others := by
  have cut := splitOn_message named
  have othersCut := splitOn_message othersNamed
  constructor
  · intro same
    rw [same, othersCut] at cut
    exact (List.append_cancel_right cut).symm
  · intro same
    apply splitOn_injective
    rw [cut, same, othersCut]

theorem length_splitOn (content : List UInt8) : (content.splitOn 0).length = content.count 0 + 1 := by
  induction content with
  | nil => rfl
  | cons byte content ih =>
      rw [List.splitOn_cons_eq_if_modifyHead]
      by_cases zero : byte = 0
      · rw [if_pos (by simpa using zero), List.length_cons, ih, zero, List.count_cons_self]
      · rw [if_neg (by simpa using zero), List.length_modifyHead, ih, List.count_cons_of_ne zero]

theorem eq_of_pieces (paths : textBytes file.1.text = textBytes changed.1.text)
    (contents : file.2.splitOn 0 = changed.2.splitOn 0) : file = changed := by
  obtain ⟨⟨path⟩, content⟩ := file
  obtain ⟨⟨otherPath⟩, otherContent⟩ := changed
  cases textBytes_injective paths
  cases splitOn_injective contents
  rfl

/-- The pieces and the number of zero bytes in each file determine the files. -/
theorem eq_iff_pieces : files = others ↔ pieces files = pieces others ∧ zeroBytes files = zeroBytes others := by
  constructor
  · rintro rfl
    exact ⟨rfl, rfl⟩
  · rintro ⟨samePieces, sameZeros⟩
    induction files generalizing others with
    | nil =>
        cases others with
        | nil => rfl
        | cons other others => simp [zeroBytes] at sameZeros
    | cons file files ih =>
        cases others with
        | nil => simp [zeroBytes] at sameZeros
        | cons other others =>
            obtain ⟨zeros, laterZeros⟩ := List.cons.inj sameZeros
            obtain ⟨paths, behind⟩ := List.cons.inj samePieces
            have sizes : (file.2.splitOn 0).length = (other.2.splitOn 0).length := by
              rw [length_splitOn, length_splitOn]
              exact congrArg (· + 1) zeros
            obtain ⟨contents, laterPieces⟩ := List.append_inj behind sizes
            rw [eq_of_pieces paths contents, ih laterPieces laterZeros]

theorem length_pieces_of_zeroless (zeroless : ∀ file ∈ files, 0 ∉ file.2) :
    (pieces files).length = 2 * files.length := by
  induction files with
  | nil => rfl
  | cons file files ih =>
      obtain ⟨first, later⟩ := List.forall_mem_cons.mp zeroless
      have one : (file.2.splitOn 0).length = 1 := by
        rw [length_splitOn, List.count_eq_zero.mpr first]
      have laterPieces := ih later
      rw [pieces] at laterPieces
      rw [pieces, List.flatMap_cons, List.length_append, List.length_cons, one, laterPieces, List.length_cons]
      omega

theorem zeroBytes_of_zeroless (zeroless : ∀ file ∈ files, 0 ∉ file.2) :
    zeroBytes files = List.replicate files.length 0 := by
  rw [List.eq_replicate_iff, zeroBytes]
  refine ⟨List.length_map _, fun zeros member => ?_⟩
  obtain ⟨file, listed, rfl⟩ := List.mem_map.mp member
  exact List.count_eq_zero.mpr (zeroless file listed)

theorem eq_iff_pieces_of_zeroless (zeroless : ∀ file ∈ files, 0 ∉ file.2)
    (othersToo : ∀ file ∈ others, 0 ∉ file.2) :
    files = others ↔ pieces files = pieces others := by
  rw [eq_iff_pieces, and_iff_left_iff_imp]
  intro same
  have doubled := congrArg List.length same
  rw [length_pieces_of_zeroless zeroless, length_pieces_of_zeroless othersToo] at doubled
  have lengths := Nat.eq_of_mul_eq_mul_left (by decide) doubled
  rw [zeroBytes_of_zeroless zeroless, zeroBytes_of_zeroless othersToo, lengths]

theorem pieces_change_iff : pieces (front ++ file :: back) = pieces (front ++ changed :: back) ↔ file = changed := by
  constructor
  · intro same
    rw [pieces_append, pieces_append] at same
    have middle : pieces (file :: back) = pieces (changed :: back) := List.append_cancel_left same
    rw [pieces, pieces, List.flatMap_cons, List.flatMap_cons] at middle
    obtain ⟨paths, contents⟩ := List.cons.inj (List.append_cancel_right middle)
    exact eq_of_pieces paths contents
  · rintro rfl
    rfl

theorem ofSchema_eq_iff (named : Named files) (othersNamed : Named others) : ofSchema files = ofSchema others ↔
    pieces files = pieces others ∨ Digest.Collide (message files) (message others) := by
  rw [← message_eq_iff named othersNamed]
  exact Digest.sha256_eq_iff

/-- The seeds of two lists of schema files are the same if and only if the pieces between zero bytes are (or the
digest does not tell the messages apart). The lists are then the same if and only if each file has as many zero
bytes as the other, so always where there are none; a change of one file alone always shows; and literals under
different seeds have different fingerprints. -/
theorem schema_seed_separates {disk other : Disk} {project moved : Project}
    (read : readSchema disk project = .ok files) (readOther : readSchema other moved = .ok others)
    (named : Named files) (othersNamed : Named others) :
    (ofContents disk project = ofContents other moved ↔
      pieces files = pieces others ∨ Digest.Collide (message files) (message others)) ∧
    (files = others ↔ pieces files = pieces others ∧ zeroBytes files = zeroBytes others) ∧
    ((∀ file ∈ files, 0 ∉ file.2) → (∀ file ∈ others, 0 ∉ file.2) →
      (files = others ↔ pieces files = pieces others)) ∧
    (∀ front file changed back, files = front ++ file :: back → others = front ++ changed :: back →
      (pieces files = pieces others ↔ file = changed)) ∧
    ∃ seed seedOther, ofContents disk project = .ok seed ∧ ofContents other moved = .ok seedOther ∧
      ∀ literal text, fingerprint seed literal = fingerprint seedOther text ↔
        (seed = seedOther ∧ Graphql.normalize literal = Graphql.normalize text) ∨
          Digest.Collide (fingerprintMessage seed literal) (fingerprintMessage seedOther text) := by
  have seed : ofContents disk project = .ok (ofSchema files) := by rw [ofContents, read]; rfl
  have seedOther : ofContents other moved = .ok (ofSchema others) := by rw [ofContents, readOther]; rfl
  refine ⟨?_, eq_iff_pieces, eq_iff_pieces_of_zeroless, ?_, _, _, seed, seedOther,
    fingerprint_eq_fingerprint_iff ?_⟩
  · rw [seed, seedOther, Except.ok.injEq, ofSchema_eq_iff named othersNamed]
  · rintro front file changed back rfl rfl
    exact pieces_change_iff
  · exact (Digest.isDigest_sha256 _).1.trans (Digest.isDigest_sha256 _).1.symm

/-- A file with a zero byte, and the same bytes as a path and two files: the empty piece tells them apart. -/
theorem schema_seed_separates_zeroed :
    let one : Project := ⟨⟨"/"⟩, { schema := [⟨"a"⟩] }, "", Syntax.parse⟩
    let two : Project := ⟨⟨"/"⟩, { schema := [⟨"a"⟩, ⟨"b"⟩] }, "", Syntax.parse⟩
    let disk : Disk := ⟨[(["a"], .file ⟨#[120, 0, 98]⟩)]⟩
    let other : Disk := ⟨[(["a"], .file ⟨#[120]⟩), (["b"], .file ⟨#[]⟩)]⟩
    readSchema disk one = .ok [(⟨"a"⟩, [120, 0, 98])] ∧
    readSchema other two = .ok [(⟨"a"⟩, [120]), (⟨"b"⟩, [])] ∧
    (ofContents disk one = ofContents other two ↔
      Digest.Collide [97, 0, 120, 0, 98, 0] [97, 0, 120, 0, 98, 0, 0]) := by
  intro one two disk other
  have read : readSchema disk one = .ok [(⟨"a"⟩, [120, 0, 98])] := by unfold disk one; rfl
  have readOther : readSchema other two = .ok [(⟨"a"⟩, [120]), (⟨"b"⟩, [])] := by unfold other two; rfl
  have named : Named [(⟨"a"⟩, [120, 0, 98])] := by unfold Named; decide
  have othersNamed : Named [(⟨"a"⟩, [120]), (⟨"b"⟩, [])] := by unfold Named; decide
  have separates := (schema_seed_separates read readOther named othersNamed).1
  exact ⟨read, readOther, separates.trans (or_iff_right (by decide))⟩

/-- A file whose contents go on like another file gives the seed of the two files. -/
theorem schema_seed_merges :
    let one : Project := ⟨⟨"/"⟩, { schema := [⟨"a"⟩] }, "", Syntax.parse⟩
    let two : Project := ⟨⟨"/"⟩, { schema := [⟨"a"⟩, ⟨"b"⟩] }, "", Syntax.parse⟩
    let disk : Disk := ⟨[(["a"], .file ⟨#[120, 0, 98, 0, 121]⟩)]⟩
    let other : Disk := ⟨[(["a"], .file ⟨#[120]⟩), (["b"], .file ⟨#[121]⟩)]⟩
    readSchema disk one = .ok [(⟨"a"⟩, [120, 0, 98, 0, 121])] ∧
    readSchema other two = .ok [(⟨"a"⟩, [120]), (⟨"b"⟩, [121])] ∧
    [(⟨"a"⟩, [120, 0, 98, 0, 121])] ≠ [((⟨"a"⟩ : Path), ([120] : List UInt8)), (⟨"b"⟩, [121])] ∧
    ofContents disk one = ofContents other two := by
  intro one two disk other
  have read : readSchema disk one = .ok [(⟨"a"⟩, [120, 0, 98, 0, 121])] := by unfold disk one; rfl
  have readOther : readSchema other two = .ok [(⟨"a"⟩, [120]), (⟨"b"⟩, [121])] := by unfold other two; rfl
  have merged : message [(⟨"a"⟩, [120, 0, 98, 0, 121])] = message [(⟨"a"⟩, [120]), (⟨"b"⟩, [121])] := by
    decide
  refine ⟨read, readOther, by decide, ?_⟩
  rw [ofContents, ofContents, read, readOther]
  exact congrArg (fun bytes => Except.ok (Digest.sha256 bytes)) merged

end Seed

end TypedLiterals
