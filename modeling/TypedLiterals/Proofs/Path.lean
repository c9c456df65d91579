import Mathlib.Data.List.Basic
import TypedLiterals.Proofs.Disk.Operations
import TypedLiterals.Proofs.Text.Encoding

/-!
The names in the text of a path.

Joining paths appends their names. The canonical spelling of a path is made of its pieces and has them
for its names, so it is its own canonical spelling.
-/

namespace TypedLiterals

namespace Path

variable {separates : Char → Bool} {character : Char} {front back text tail : List Char}
  {pieces others : List (List Char)}

/-! ## Pieces -/

theorem splitWhere_ne_nil (separates : Char → Bool) (text : List Char) : splitWhere separates text ≠ [] := by
  fun_cases splitWhere separates text <;> simp_all

theorem splitWhere_append (back : List Char) (separator : separates character = true) :
    splitWhere separates (front ++ character :: back) =
      splitWhere separates front ++ splitWhere separates back := by
  induction front with
  | nil => simp [splitWhere, separator]
  | cons first rest ih =>
      obtain ⟨piece, later, split⟩ := List.exists_cons_of_ne_nil (splitWhere_ne_nil separates rest)
      rw [split] at ih
      cases separated : separates first with
      | true => simp [splitWhere, separated, ih, split]
      | false => simp [splitWhere, separated, ih, split]

theorem splitWhere_of_none (inside : ∀ character ∈ text, separates character = false) :
    splitWhere separates text = [text] := by
  induction text with
  | nil => rfl
  | cons first rest ih =>
      have split := ih fun other member => inside other (List.mem_cons_of_mem _ member)
      simp [splitWhere, inside first List.mem_cons_self, split]

theorem separates_of_mem_splitWhere (text : List Char) :
    ∀ piece ∈ splitWhere separates text, ∀ character ∈ piece, separates character = false := by
  induction text with
  | nil => simp [splitWhere]
  | cons first rest ih =>
      obtain ⟨head, later, split⟩ := List.exists_cons_of_ne_nil (splitWhere_ne_nil separates rest)
      rw [split] at ih
      intro piece member character inside
      cases separated : separates first with
      | true =>
          rw [splitWhere, separated, if_pos rfl, split] at member
          rcases List.mem_cons.mp member with rfl | member
          · contradiction
          · exact ih piece member character inside
      | false =>
          rw [splitWhere, separated, if_neg Bool.false_ne_true, split] at member
          rcases List.mem_cons.mp member with rfl | member
          · rcases List.mem_cons.mp inside with rfl | inside
            · exact separated
            · exact ih head List.mem_cons_self character inside
          · exact ih piece (List.mem_cons_of_mem _ member) character inside

theorem joinSlashes_cons (piece : List Char) (present : pieces ≠ []) :
    joinSlashes (piece :: pieces) = piece ++ '/' :: joinSlashes pieces := by
  rw [joinSlashes, List.intercalate_cons_of_ne_nil present, List.append_assoc]
  rfl

theorem splitWhere_joinSlashes (slash : separates '/' = true) (present : pieces ≠ [])
    (inside : ∀ piece ∈ pieces, ∀ character ∈ piece, separates character = false) :
    splitWhere separates (joinSlashes pieces) = pieces := by
  induction pieces with
  | nil => contradiction
  | cons piece later ih =>
      have first := splitWhere_of_none (inside piece List.mem_cons_self)
      by_cases last : later = []
      · subst last
        simpa [joinSlashes] using first
      · rw [joinSlashes_cons piece last, splitWhere_append _ slash, first,
          ih last fun other member => inside other (List.mem_cons_of_mem _ member)]
        rfl

/-- Pieces with more after the last of them. -/
def extendLast (tail : List Char) : List (List Char) → List (List Char)
  | [] => [tail]
  | [piece] => [piece ++ tail]
  | piece :: next :: later => piece :: extendLast tail (next :: later)

theorem extendLast_ne_nil : extendLast tail pieces ≠ [] := by
  fun_cases extendLast tail pieces <;> simp

theorem joinSlashes_append (pieces : List (List Char)) (tail : List Char) :
    joinSlashes pieces ++ tail = joinSlashes (extendLast tail pieces) := by
  fun_induction extendLast tail pieces with
  | case1 => simp [joinSlashes]
  | case2 => simp [joinSlashes]
  | case3 piece next later ih =>
      rw [joinSlashes_cons piece (by simp), joinSlashes_cons piece extendLast_ne_nil, ← ih,
        List.append_assoc, List.cons_append]

theorem extendLast_append (front : List (List Char)) (present : others ≠ []) :
    extendLast tail (front ++ others) = front ++ extendLast tail others := by
  induction front with
  | nil => rfl
  | cons piece later ih =>
      obtain ⟨next, more, split⟩ := List.exists_cons_of_ne_nil
        (show later ++ others ≠ [] by simp [present])
      rw [List.cons_append, split, extendLast, ← split, ih, List.cons_append]

theorem exists_extendLast (tail : List Char) (pieces : List (List Char)) :
    ∃ front stem, extendLast tail pieces = front ++ [stem ++ tail] := by
  fun_induction extendLast tail pieces with
  | case1 => exact ⟨[], [], rfl⟩
  | case2 piece => exact ⟨[], piece, rfl⟩
  | case3 piece next later ih =>
      obtain ⟨front, stem, same⟩ := ih
      exact ⟨piece :: front, stem, by rw [same, List.cons_append]⟩

theorem mem_extendLast {piece : List Char} (member : piece ∈ extendLast tail pieces) :
    piece ∈ pieces ∨ ∃ stem, (stem = [] ∨ stem ∈ pieces) ∧ piece = stem ++ tail := by
  fun_induction extendLast tail pieces with
  | case1 =>
      rw [List.mem_singleton.mp member]
      exact .inr ⟨[], .inl rfl, rfl⟩
  | case2 last =>
      rw [List.mem_singleton.mp member]
      exact .inr ⟨last, .inr List.mem_cons_self, rfl⟩
  | case3 first next later ih =>
      rcases List.mem_cons.mp member with rfl | member
      · exact .inl List.mem_cons_self
      · rcases ih member with inside | ⟨stem, from_, same⟩
        · exact .inl (List.mem_cons_of_mem _ inside)
        · exact .inr ⟨stem, from_.imp_right (List.mem_cons_of_mem _), same⟩

/-- Pieces and what follows the last of them can be told apart when its length is known. -/
theorem extendLast_injective {ending : List Char} (present : pieces ≠ []) (alsoPresent : others ≠ [])
    (length : tail.length = ending.length)
    (same : extendLast tail pieces = extendLast ending others) : pieces = others ∧ tail = ending := by
  induction pieces generalizing others with
  | nil => contradiction
  | cons piece later ih =>
      obtain ⟨other, more, rfl⟩ := List.exists_cons_of_ne_nil alsoPresent
      cases later with
      | nil =>
          cases more with
          | nil =>
              obtain ⟨rfl, rfl⟩ := List.append_inj' (List.singleton_inj.mp same) length
              exact ⟨rfl, rfl⟩
          | cons next rest => exact absurd (List.cons.inj same).2.symm extendLast_ne_nil
      | cons next rest =>
          cases more with
          | nil => exact absurd (List.cons.inj same).2 extendLast_ne_nil
          | cons first more =>
              obtain ⟨rfl, tails⟩ := List.cons.inj same
              obtain ⟨pieces, ends⟩ := ih (by simp) (by simp) tails
              rw [pieces]
              exact ⟨rfl, ends⟩

/-! ## Canonical spelling -/

/-- A piece that a canonical spelling can have. -/
def IsPiece (piece : List Char) : Prop :=
  isVoid piece = false ∧ ∀ character ∈ piece, character ≠ '/' ∧ character ≠ '\\'

theorem isPiece_of_mem_slashPieces {text : String} {piece : List Char} (member : piece ∈ slashPieces text) :
    IsPiece piece := by
  obtain ⟨found, notVoid⟩ := List.mem_filter.mp member
  refine ⟨by simpa using notVoid, fun character inside => ?_⟩
  have apart := separates_of_mem_splitWhere _ piece found character inside
  simpa using apart

theorem slashPieces_joinSlashes (valid : ∀ piece ∈ pieces, IsPiece piece) :
    slashPieces (String.ofList (joinSlashes pieces)) = pieces := by
  rw [slashPieces, Text.characters_eq, String.toList_ofList]
  by_cases present : pieces = []
  · subst present
    rfl
  · rw [splitWhere_joinSlashes (by decide) present, List.filter_eq_self]
    · exact fun piece member => by simp [(valid piece member).1]
    · exact fun piece member character inside => by simp [(valid piece member).2 character inside]

theorem slashPieces_slashed (text : String) : slashPieces (slashed text) = slashPieces text :=
  slashPieces_joinSlashes fun _ member => isPiece_of_mem_slashPieces member

theorem slashed_slashed (text : String) : slashed (slashed text) = slashed text := by
  rw [slashed, slashPieces_slashed, ← slashed]

theorem slashPieces_append_slash (front back : String) :
    slashPieces (front ++ "/" ++ back) = slashPieces front ++ slashPieces back := by
  have whole : (front ++ "/" ++ back).toList = front.toList ++ '/' :: back.toList := by simp
  simp only [slashPieces, Text.characters_eq, whole]
  rw [splitWhere_append _ (by decide), List.filter_append]

/-! ## Names -/

theorem isSlash_slash : isSlash '/' = true := by decide

theorem pathNames_ofList (text : List Char) :
    Disk.pathNames (String.ofList text) = ((splitWhere isSlash text).filter (· ≠ [])).map String.ofList := by
  rw [Disk.pathNames, Text.characters_eq, String.toList_ofList]

theorem pathNames_append_slash (front back : String) :
    Disk.pathNames (front ++ "/" ++ back) = Disk.pathNames front ++ Disk.pathNames back := by
  have whole : (front ++ "/" ++ back).toList = front.toList ++ '/' :: back.toList := by simp
  simp only [Disk.pathNames, Text.characters_eq, whole]
  rw [splitWhere_append _ isSlash_slash, List.filter_append, List.map_append]

theorem pathNames_append_of_endsInSlash {front : String} (back : String)
    (slash : front.toList.getLast? = some '/') :
    Disk.pathNames (front ++ back) = Disk.pathNames front ++ Disk.pathNames back := by
  obtain ⟨before, split⟩ := List.getLast?_eq_some_iff.mp slash
  have whole : (front ++ back).toList = before ++ '/' :: back.toList := by simp [split]
  rw [Disk.pathNames, Disk.pathNames, Text.characters_eq, Text.characters_eq, whole, split,
    splitWhere_append _ isSlash_slash, splitWhere_append _ isSlash_slash, List.filter_append, List.filter_append,
    List.map_append, List.map_append]
  simp [splitWhere, Disk.pathNames]

theorem pathNames_join {base rel : Path} (relative : rel.isAbsolute = false) :
    Disk.pathNames (base.join rel).text = Disk.pathNames base.text ++ Disk.pathNames rel.text := by
  rw [join, relative, if_neg Bool.false_ne_true]
  split
  · next ends =>
      rcases Bool.or_eq_true_iff.mp ends with empty | slash
      · have none : base.text = "" := by simpa using empty
        simp [none, Disk.pathNames, splitWhere]
      · exact pathNames_append_of_endsInSlash _ (by simpa using slash)
  · exact pathNames_append_slash _ _

/-- A text that is one name of a path. -/
def IsName (text : List Char) : Prop :=
  text ≠ [] ∧ ∀ character ∈ text, isSlash character = false

theorem pathNames_name (name : IsName text) : Disk.pathNames (String.ofList text) = [String.ofList text] := by
  rw [pathNames_ofList, splitWhere_of_none name.2]
  simp [name.1]

theorem isAbsolute_name (name : IsName text) : isAbsolute ⟨String.ofList text⟩ = false := by
  obtain ⟨first, rest, rfl⟩ := List.exists_cons_of_ne_nil name.1
  have notSlash : first ≠ '/' := by simpa [isSlash] using name.2 first List.mem_cons_self
  simp [isAbsolute, notSlash]

theorem pathNames_join_name (base : Path) (name : IsName text) :
    Disk.pathNames (base.join ⟨String.ofList text⟩).text =
      Disk.pathNames base.text ++ [String.ofList text] := by
  rw [pathNames_join (isAbsolute_name name), pathNames_name name]

theorem named_join_name (base : Path) (name : IsName text) :
    Disk.Named (base.join ⟨String.ofList text⟩) := by
  obtain ⟨before, last, rfl⟩ := (List.eq_nil_or_concat text).resolve_left name.1
  have notSlash : last ≠ '/' := by simpa [isSlash] using name.2 last (by simp)
  have ends : ∀ front : List Char,
      Disk.Named ⟨String.ofList (front ++ (before ++ [last]))⟩ := by
    intro front
    constructor
    · simp
    · simp [Disk.endsInSlash, notSlash]
  rw [join, isAbsolute_name name, if_neg Bool.false_ne_true]
  split
  · simpa using ends base.text.toList
  · simpa [String.append_assoc] using ends (base.text.toList ++ ['/'])

/-- The pieces of a text that are names. -/
def namePieces (text : String) : List (List Char) :=
  (splitWhere isSlash text.toList).filter (· ≠ [])

theorem pathNames_eq (text : String) : Disk.pathNames text = (namePieces text).map String.ofList := by
  rw [Disk.pathNames, Text.characters_eq, namePieces]

theorem joinSlashed_eq (base : Path) (rel : String) :
    base.joinSlashed rel =
      (namePieces rel).foldl (fun path piece => path.join ⟨String.ofList piece⟩) base := by
  rw [joinSlashed, Text.characters_eq, namePieces]

theorem isName_of_mem_namePieces {rel : String} : ∀ piece ∈ namePieces rel, IsName piece := by
  intro piece member
  obtain ⟨found, present⟩ := List.mem_filter.mp member
  exact ⟨by simpa using present, separates_of_mem_splitWhere _ piece found⟩

theorem pathNames_joinSlashed (base : Path) (rel : String) :
    Disk.pathNames (base.joinSlashed rel).text = Disk.pathNames base.text ++ Disk.pathNames rel := by
  have names := @isName_of_mem_namePieces rel
  rw [joinSlashed_eq, pathNames_eq rel]
  generalize namePieces rel = list at names
  induction list generalizing base with
  | nil => simp
  | cons piece later ih =>
      rw [List.foldl_cons, ih _ fun other member => names other (List.mem_cons_of_mem _ member),
        pathNames_join_name base (names piece List.mem_cons_self), List.map_cons, List.append_assoc]
      rfl

theorem pathNames_joinSlashes (valid : ∀ piece ∈ pieces, IsPiece piece) :
    Disk.pathNames (String.ofList (joinSlashes pieces)) = pieces.map String.ofList := by
  rw [pathNames_ofList]
  by_cases present : pieces = []
  · subst present
    rfl
  · rw [splitWhere_joinSlashes isSlash_slash present, List.filter_eq_self.mpr]
    · intro piece member
      have notVoid := (valid piece member).1
      simp only [isVoid, Bool.or_eq_false_iff] at notVoid
      simpa using notVoid.1
    · exact fun piece member character inside => by
        simp [isSlash, (valid piece member).2 character inside]

theorem opens_of_leads_joinSlashed {disk : Disk} {base : Path} {rel : String} {place : Disk.Place}
    (leads : disk.Leads (base.joinSlashed rel) place) (present : Disk.pathNames rel ≠ []) :
    ∃ site, disk.Opens base site := by
  rw [Disk.Leads, pathNames_joinSlashed] at leads
  obtain ⟨site, left, led, rest⟩ := leads.of_append present
  obtain ⟨name, later, split⟩ := List.exists_cons_of_ne_nil present
  rw [split] at rest
  exact ⟨site, led, rest.inside⟩

end Path

end TypedLiterals
