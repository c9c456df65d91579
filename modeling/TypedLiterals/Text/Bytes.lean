/-!
Positions in a text, counted in the bytes of its UTF-8 form.

A text is a list of characters and an offset counts the bytes before a position, so an offset may fall
past the end or inside a character. `splitAtByte?` is the one place where that is found out.
-/

namespace TypedLiterals.Text

/-- The characters of a text. The bytes of an ASCII text are read one by one, and no offset is counted. -/
def characters (text : String) : List Char :=
  let bytes := text.toUTF8.data.toList
  if bytes.all (· < 128) then bytes.map fun byte => Char.ofNat byte.toNat else text.toList

/-- The number of bytes the characters occupy in UTF-8. -/
def byteLength : List Char → Nat
  | [] => 0
  | character :: rest => character.utf8Size + byteLength rest

/-- Cuts a text at a byte offset. There is no cut past the end or inside a character. -/
def splitAtByte? : Nat → List Char → Option (List Char × List Char)
  | 0, text => some ([], text)
  | _ + 1, [] => none
  | offset + 1, character :: rest =>
    if character.utf8Size ≤ offset + 1 then
      (splitAtByte? (offset + 1 - character.utf8Size) rest).map fun halves =>
        (character :: halves.1, halves.2)
    else none

/-- Whether an offset stands between two characters of the text or at one of its ends. -/
def isBoundary (text : List Char) (offset : Nat) : Bool :=
  (splitAtByte? offset text).isSome

/-- The text between two offsets, when both are boundaries in order. -/
def slice? (text : List Char) (start stop : Nat) : Option (List Char) :=
  if start ≤ stop then
    (splitAtByte? start text).bind fun halves =>
      (splitAtByte? (stop - start) halves.2).map (·.1)
  else none

@[simp] theorem byteLength_nil : byteLength [] = 0 := rfl

@[simp] theorem byteLength_cons (character : Char) (rest : List Char) :
    byteLength (character :: rest) = character.utf8Size + byteLength rest := rfl

@[simp] theorem byteLength_append (front back : List Char) :
    byteLength (front ++ back) = byteLength front + byteLength back := by
  induction front with
  | nil => simp
  | cons character rest ih => simp [ih, Nat.add_assoc]

@[simp] theorem splitAtByte?_zero (text : List Char) : splitAtByte? 0 text = some ([], text) := by
  cases text <;> rfl

theorem length_le_byteLength (text : List Char) : text.length ≤ byteLength text := by
  induction text with
  | nil => exact Nat.le_refl _
  | cons character rest ih =>
      have positive := character.utf8Size_pos
      rw [List.length_cons, byteLength_cons]
      omega

/-- Both halves of a cut make up the text, and the first has the length asked for. -/
theorem splitAtByte?_eq_some {offset : Nat} {text front back : List Char}
    (cut : splitAtByte? offset text = some (front, back)) :
    front ++ back = text ∧ byteLength front = offset := by
  induction text generalizing offset front with
  | nil =>
      cases offset with
      | zero => simp_all
      | succ offset => simp [splitAtByte?] at cut
  | cons character rest ih =>
      cases offset with
      | zero => simp_all
      | succ offset =>
          simp only [splitAtByte?] at cut
          split at cut
          · next fits =>
              obtain ⟨halves, inner, same⟩ := Option.map_eq_some_iff.mp cut
              cases same
              have ⟨whole, size⟩ := ih inner
              exact ⟨by simp [whole], by simp [size]; omega⟩
          · contradiction

/-- The end of any front part of a text is a place to cut it. -/
theorem splitAtByte?_append (front back : List Char) :
    splitAtByte? (byteLength front) (front ++ back) = some (front, back) := by
  induction front with
  | nil => simp
  | cons character rest ih =>
      have positive := character.utf8Size_pos
      obtain ⟨size, same⟩ : ∃ size, character.utf8Size + byteLength rest = size + 1 :=
        ⟨character.utf8Size + byteLength rest - 1, by omega⟩
      simp only [List.cons_append, byteLength_cons, same, splitAtByte?]
      have fits : character.utf8Size ≤ size + 1 := by omega
      have left : size + 1 - character.utf8Size = byteLength rest := by omega
      simp [fits, left, ih]

theorem isBoundary_iff {text : List Char} {offset : Nat} :
    isBoundary text offset = true ↔ ∃ front back, text = front ++ back ∧ byteLength front = offset := by
  rw [isBoundary, Option.isSome_iff_exists]
  constructor
  · rintro ⟨⟨front, back⟩, cut⟩
    obtain ⟨whole, length⟩ := splitAtByte?_eq_some cut
    exact ⟨front, back, whole.symm, length⟩
  · rintro ⟨front, back, rfl, rfl⟩
    exact ⟨_, splitAtByte?_append front back⟩

/-- A middle part of a text is the slice between its ends. -/
theorem slice?_append (front middle back : List Char) :
    slice? (front ++ (middle ++ back)) (byteLength front) (byteLength front + byteLength middle) = some middle := by
  rw [slice?, if_pos (Nat.le_add_right _ _), splitAtByte?_append, Option.bind_some, Nat.add_sub_cancel_left,
    splitAtByte?_append]
  rfl

end TypedLiterals.Text
