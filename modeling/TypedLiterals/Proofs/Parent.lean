import Mathlib.Data.List.DropRight
import TypedLiterals.Proofs.Path

/-!
The parent of a path.

A parent keeps the head of a path and the pieces before its last name. So the names of a path are those of
its parent, a last name, and dots around it that lead nowhere else.
-/

namespace TypedLiterals

namespace Path

variable {text : List Char} {pieces : List (List Char)} {path : Path}

/-! ## Pieces of a path -/

theorem joinSlashes_splitWhere (text : List Char) : joinSlashes (splitWhere isSlash text) = text := by
  induction text with
  | nil => rfl
  | cons first rest ih =>
      obtain ⟨piece, later, split⟩ := List.exists_cons_of_ne_nil (splitWhere_ne_nil isSlash rest)
      cases slash : isSlash first with
      | true =>
          have same : first = '/' := by simpa [isSlash] using slash
          rw [splitWhere, slash, if_pos rfl, joinSlashes_cons _ (splitWhere_ne_nil _ _), ih, same,
            List.nil_append]
      | false =>
          rw [split] at ih
          rw [splitWhere, slash, if_neg Bool.false_ne_true, split]
          by_cases last : later = []
          · subst last
            simpa [joinSlashes] using ih
          · rw [joinSlashes_cons _ last] at ih ⊢
            rw [List.cons_append, ih]

theorem joinSlashes_cons_cases (piece : List Char) (pieces : List (List Char)) :
    ∃ tail, joinSlashes (piece :: pieces) = piece ++ tail ∧ (tail = [] ∨ ∃ rest, tail = '/' :: rest) := by
  by_cases last : pieces = []
  · subst last
    exact ⟨[], by simp [joinSlashes], .inl rfl⟩
  · exact ⟨_, joinSlashes_cons piece last, .inr ⟨_, rfl⟩⟩

/-- The pieces that stand for the head of a path among its names. -/
def headPieces (head : List Char) : List (List Char) :=
  if head = ['.'] then [['.']] else []

theorem namePieces_eq (path : Path) :
    namePieces path.text =
      headPieces (splitHead path.text.toList).1 ++ path.bodyPieces.filter (· ≠ []) := by
  rw [namePieces, bodyPieces, Text.characters_eq]
  generalize path.text.toList = text
  fun_cases splitHead text with
  | case1 rest => rfl
  | case2 => rfl
  | case3 rest => rfl
  | case4 => simp [headPieces]

/-! ## Parents -/

/-- Pieces that a path may keep when names are dropped from its end. -/
structure Front (pieces : List (List Char)) (text : List Char) : Prop where
  inside : pieces <+: splitWhere isSlash (splitHead text).2
  last : ∀ piece, pieces.getLast? = some piece → isVoid piece = false

/-- A path without its last names has the same head. -/
theorem Front.splitHead (kept : Front pieces text) :
    splitHead ((splitHead text).1 ++ joinSlashes pieces) = ((splitHead text).1, joinSlashes pieces) := by
  obtain ⟨⟨rest, split⟩, last⟩ := kept
  have whole := joinSlashes_splitWhere (Path.splitHead text).2
  rw [← split] at whole
  cases pieces with
  | nil => fun_cases Path.splitHead text <;> rfl
  | cons first later =>
      -- The head is read off the first one or two characters, so the cases are those of the reader; the last one
      -- has to rule out that dropping names makes a head appear.
      fun_cases Path.splitHead text with
      | case1 tail => rfl
      | case2 =>
          have only : first :: later ++ rest = [[]] := split
          obtain ⟨rfl, none⟩ := List.cons.inj only
          obtain ⟨rfl, _⟩ := List.append_eq_nil_iff.mp none
          exact absurd (last [] rfl) (by decide)
      | case3 tail =>
          have opened : first :: later ++ rest = [] :: splitWhere isSlash tail := split
          obtain ⟨rfl, _⟩ := List.cons.inj opened
          have present : later ≠ [] := by
            rintro rfl
            exact absurd (last [] rfl) (by decide)
          rw [joinSlashes_cons _ present]
          rfl
      | case4 _ notRoot notDot notCurrent =>
          have body : (Path.splitHead text).2 = text := by
            rw [Path.splitHead.eq_4 text notRoot notDot notCurrent]
          rw [body] at split whole
          have plain := separates_of_mem_splitWhere text first (by rw [← split]; exact List.mem_cons_self)
          obtain ⟨after, joined, ends⟩ := joinSlashes_cons_cases first (later ++ rest)
          rw [List.cons_append, joined] at whole
          have named : first ≠ [] := by
            rintro rfl
            rcases ends with rfl | ⟨more, rfl⟩
            · rw [← whole] at split
              obtain ⟨_, none⟩ := List.cons.inj split
              obtain ⟨rfl, _⟩ := List.append_eq_nil_iff.mp none
              exact absurd (last [] rfl) (by decide)
            · exact notRoot more whole.symm
          have other : first ≠ ['.'] := by
            rintro rfl
            rcases ends with rfl | ⟨more, rfl⟩
            · exact notDot whole.symm
            · exact notCurrent more whole.symm
          obtain ⟨after, joined, ends⟩ := joinSlashes_cons_cases first later
          rw [List.nil_append, joined]
          obtain ⟨letter, letters, rfl⟩ := List.exists_cons_of_ne_nil named
          have slashless : letter ≠ '/' := by simpa [isSlash] using plain letter List.mem_cons_self
          refine Path.splitHead.eq_4 _ (fun more same => slashless (List.cons.inj same).1)
            (fun same => ?_) fun more same => ?_
          · obtain ⟨rfl, none⟩ := List.cons.inj same
            obtain ⟨rfl, _⟩ := List.append_eq_nil_iff.mp none
            exact other rfl
          · obtain ⟨rfl, tail⟩ := List.cons.inj same
            cases letters with
            | nil => exact other rfl
            | cons second others =>
                have apart : second ≠ '/' := by simpa [isSlash] using plain second (by simp)
                exact apart (List.cons.inj tail).1

theorem isVoid_of_trimmed {piece : List Char} (final : (trimVoidEnd pieces).getLast? = some piece) :
    isVoid piece = false := by
  rw [trimVoidEnd, List.getLast?_reverse] at final
  have stops := List.head?_dropWhile_not isVoid pieces.reverse
  rw [final] at stops
  exact stops

/-- How a path is made of its parent. -/
theorem parent?_cases (path : Path) :
    (∀ piece ∈ path.bodyPieces, isVoid piece = true) ∨
    ∃ kept dots last void, path.bodyPieces = kept ++ dots ++ last :: void ∧
      (∀ piece ∈ dots ++ void, isVoid piece = true) ∧ isVoid last = false ∧ Front kept path.text.toList ∧
      path.parent? = some ⟨String.ofList ((splitHead path.text.toList).1 ++ joinSlashes kept)⟩ := by
  have trimmed : trimVoidEnd path.bodyPieces ++ path.bodyPieces.rtakeWhile isVoid = path.bodyPieces :=
    List.rdropWhile_append_rtakeWhile
  cases reversed : (trimVoidEnd path.bodyPieces).reverse with
  | nil =>
      refine .inl fun piece member => ?_
      rw [List.reverse_eq_nil_iff.mp reversed, List.nil_append] at trimmed
      rw [← trimmed] at member
      exact List.mem_rtakeWhile_imp member
  | cons last before =>
      have ends : trimVoidEnd path.bodyPieces = before.reverse ++ [last] := by
        rw [← List.reverse_cons, ← reversed, List.reverse_reverse]
      have inner : trimVoidEnd before.reverse ++ before.reverse.rtakeWhile isVoid = before.reverse :=
        List.rdropWhile_append_rtakeWhile
      have whole : path.bodyPieces = trimVoidEnd before.reverse ++ before.reverse.rtakeWhile isVoid ++
          last :: path.bodyPieces.rtakeWhile isVoid := by
        rw [inner, List.append_cons, ← ends, trimmed]
      refine .inr ⟨_, _, last, _, whole, fun piece member => ?_, ?_, ⟨?_, fun piece final => ?_⟩, ?_⟩
      · rcases List.mem_append.mp member with inside | inside
        · exact List.mem_rtakeWhile_imp inside
        · exact List.mem_rtakeWhile_imp inside
      · exact isVoid_of_trimmed (by rw [ends, List.getLast?_concat])
      · rw [← Text.characters_eq, ← bodyPieces]
        exact ⟨_, (List.append_assoc _ _ _).symm.trans whole.symm⟩
      · exact isVoid_of_trimmed final
      · rw [parent?, reversed, Text.characters_eq]

theorem Front.filter_bodyPieces (front : Front pieces text) (keep : List Char → Bool)
    (empty : keep [] = false) :
    (bodyPieces ⟨String.ofList ((Path.splitHead text).1 ++ joinSlashes pieces)⟩).filter keep =
      pieces.filter keep := by
  rw [bodyPieces, Text.characters_eq, String.toList_ofList, front.splitHead]
  by_cases none : pieces = []
  · subst none
    simp [joinSlashes, splitWhere, empty]
  · rw [splitWhere_joinSlashes isSlash_slash none fun piece member =>
      separates_of_mem_splitWhere _ piece (front.inside.subset member)]

/-- A path whose last name is not a dot, unless all are. -/
def Crisp (path : Path) : Prop :=
  (∀ name ∈ Disk.pathNames path.text, name = ".") ∨ (Disk.pathNames path.text).getLast? ≠ some "."

theorem eq_dot_of_void {piece : List Char} (void : isVoid piece = true) (present : piece ≠ []) :
    String.ofList piece = "." := by
  have dot : piece = ['.'] := by simpa [isVoid, present] using void
  rw [dot]

theorem ofList_ne_dot {piece : List Char} (named : isVoid piece = false) : String.ofList piece ≠ "." := by
  intro dot
  have same : piece = ['.'] := by
    rw [← String.toList_ofList (l := piece), dot]
    rfl
  rw [same] at named
  cases named

theorem names_of_void (void : ∀ piece ∈ pieces, isVoid piece = true) :
    ∀ name ∈ (pieces.filter (· ≠ [])).map String.ofList, name = "." := by
  intro name member
  obtain ⟨piece, inside, rfl⟩ := List.mem_map.mp member
  obtain ⟨found, present⟩ := List.mem_filter.mp inside
  exact eq_dot_of_void (void piece found) (by simpa using present)

theorem pathNames_path (path : Path) :
    Disk.pathNames path.text = (headPieces (splitHead path.text.toList).1).map String.ofList ++
      (path.bodyPieces.filter (· ≠ [])).map String.ofList := by
  rw [pathNames_eq, namePieces_eq, List.map_append]

theorem names_of_head (head : List Char) : ∀ name ∈ (headPieces head).map String.ofList, name = "." := by
  intro name member
  unfold headPieces at member
  split at member
  · rw [List.map_singleton, List.mem_singleton] at member
    rw [member]
  · cases member

theorem names_of_bodyPieces (void : ∀ piece ∈ path.bodyPieces, isVoid piece = true) :
    ∀ name ∈ Disk.pathNames path.text, name = "." := by
  intro name member
  rw [pathNames_path] at member
  rcases List.mem_append.mp member with inside | inside
  · exact names_of_head _ name inside
  · exact names_of_void void name inside

theorem Front.crisp (front : Front pieces text) :
    Crisp ⟨String.ofList ((Path.splitHead text).1 ++ joinSlashes pieces)⟩ := by
  rw [Crisp, pathNames_path, front.filter_bodyPieces _ (by simp), String.toList_ofList, front.splitHead]
  rcases List.eq_nil_or_concat pieces with rfl | ⟨before, piece, rfl⟩
  · refine .inl fun name member => names_of_head (Path.splitHead text).1 name ?_
    simpa using member
  · have named := front.last piece (by simp)
    have present : piece ≠ [] := by
      rintro rfl
      cases named
    right
    rw [List.concat_eq_append, List.filter_append, List.filter_singleton, List.map_append, ← List.append_assoc]
    simpa [present] using ofList_ne_dot named

/-- A path whose names are not all dots has a parent, whose names end where the last name that is not a dot
begins. -/
theorem exists_parent (path : Path) :
    (∀ name ∈ Disk.pathNames path.text, name = ".") ∨
    ∃ parent dots name more, path.parent? = some parent ∧
      Disk.pathNames path.text = Disk.pathNames parent.text ++ dots ++ name :: more ∧
      name ≠ "." ∧ (∀ dot ∈ dots ++ more, dot = ".") ∧ parent.Crisp ∧
      path.components.length = parent.components.length + 1 := by
  rcases parent?_cases path with void | ⟨kept, dots, last, void, body, voids, named, front, above⟩
  · exact .inl (names_of_bodyPieces void)
  · have present : last ≠ [] := by
      rintro rfl
      cases named
    have parentBody := front.filter_bodyPieces
    have parentHead : (splitHead (Path.text ⟨String.ofList
        ((splitHead path.text.toList).1 ++ joinSlashes kept)⟩).toList).1 = (splitHead path.text.toList).1 := by
      rw [String.toList_ofList, front.splitHead]
    have names := pathNames_path path
    rw [body] at names
    refine .inr ⟨_, (dots.filter (· ≠ [])).map String.ofList, String.ofList last,
      (void.filter (· ≠ [])).map String.ofList, above, ?_, ?_, ?_, ?_, ?_⟩
    · rw [names, pathNames_path ⟨_⟩, parentHead, parentBody _ (by simp), List.filter_append, List.filter_append,
        List.filter_cons_of_pos (by simpa using present), List.map_append, List.map_append, List.map_cons]
      simp only [List.append_assoc]
    · exact ofList_ne_dot named
    · rw [← List.map_append, ← List.filter_append]
      exact names_of_void voids
    · exact front.crisp
    · have none : ∀ list : List (List Char), (∀ piece ∈ list, isVoid piece = true) →
          list.filter (!isVoid ·) = [] := fun list void =>
        List.filter_eq_nil_iff.mpr fun piece member => by simp [void piece member]
      rw [components, components, Text.characters_eq, Text.characters_eq, parentHead,
        parentBody _ (by simp [isVoid]), body, List.filter_append, List.filter_append, List.filter_cons_of_pos (by simpa using named),
        none dots fun piece member => voids piece (List.mem_append_left _ member),
        none void fun piece member => voids piece (List.mem_append_right _ member)]
      simp only [List.append_nil, List.map_append, List.map_cons, List.map_nil, List.length_append,
        List.length_cons, List.length_nil, List.length_map]
      omega

/-- A path that does not end in a dot has a parent, whose names are the others but for dots. -/
theorem Crisp.exists_parent (crisp : path.Crisp) {name : String} (member : name ∈ Disk.pathNames path.text)
    (notDot : name ≠ ".") :
    ∃ parent dots last, path.parent? = some parent ∧
      Disk.pathNames path.text = Disk.pathNames parent.text ++ dots ++ [last] ∧
      (∀ dot ∈ dots, dot = ".") ∧ parent.Crisp ∧ path.components.length = parent.components.length + 1 := by
  rcases Path.exists_parent path with dots | ⟨parent, dots, last, more, above, names, plain, void, rest⟩
  · exact absurd (dots name member) notDot
  · rcases List.eq_nil_or_concat more with rfl | ⟨before, dot, rfl⟩
    · exact ⟨parent, dots, last, above, names, fun dot inside => void dot (by simpa using inside), rest⟩
    · have whole : Disk.pathNames path.text = Disk.pathNames parent.text ++ dots ++ last :: before ++ ["."] := by
        rw [names, List.concat_eq_append, void dot (by simp)]
        simp
      rcases crisp with allDots | ends
      · exact absurd (allDots last (by simp [names])) plain
      · exact absurd (by rw [whole, List.getLast?_concat]) ends

end Path

end TypedLiterals
