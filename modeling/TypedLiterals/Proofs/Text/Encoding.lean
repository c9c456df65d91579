import TypedLiterals.Fingerprint
import TypedLiterals.Text.Bytes

/-!
The bytes of a text and the places between them.

The ASCII characters are one byte each, and every byte of any other character is greater than theirs. A reader that
looks for ASCII characters may therefore walk over a text byte by byte: it never takes the inside of a character for
one of them.
-/

namespace TypedLiterals.Text

/-- The bytes of a text in UTF-8. -/
def utf8 (text : List Char) : List UInt8 :=
  text.flatMap String.utf8EncodeChar

/-- The bytes from an offset on. There are none past the end. -/
def bytesFrom? (bytes : List UInt8) (offset : Nat) : Option (List UInt8) :=
  if offset ≤ bytes.length then some (bytes.drop offset) else none

/-- The text from an offset on, when it stands between two characters. -/
def sliceFrom? (text : List Char) (start : Nat) : Option (List Char) :=
  slice? text start (byteLength text)

/-- An ASCII character, whose one byte is its code. -/
def IsAscii (character : Char) : Prop :=
  character.toNat < 128

instance (character : Char) : Decidable (IsAscii character) :=
  inferInstanceAs (Decidable (_ < _))

/-- Whether a byte is by itself an ASCII character with a property. -/
def byteIs (test : Char → Bool) (byte : UInt8) : Bool :=
  byte.toNat < 128 && test (Char.ofNat byte.toNat)

/-- The bytes from an offset within some bytes or at their end. -/
structure Stands (bytes : List UInt8) (offset : Nat) (rest : List UInt8) : Prop where
  within : offset ≤ bytes.length
  drop : bytes.drop offset = rest

variable {text front back : List Char} {character other : Char} {bytes rest inner : List UInt8} {byte : UInt8}
  {offset : Nat}

/-! ## Encoding -/

@[simp] theorem utf8_nil : utf8 [] = [] := rfl

theorem utf8_cons (character : Char) (text : List Char) :
    utf8 (character :: text) = String.utf8EncodeChar character ++ utf8 text := rfl

theorem utf8_append (front back : List Char) : utf8 (front ++ back) = utf8 front ++ utf8 back :=
  List.flatMap_append

theorem length_utf8 (text : List Char) : (utf8 text).length = byteLength text := by
  induction text with
  | nil => rfl
  | cons character text ih =>
      rw [utf8_cons, List.length_append, String.length_utf8EncodeChar, ih, byteLength_cons]

theorem textBytes_eq_utf8 (text : String) : textBytes text = utf8 text.toList := by
  have encoded : text.toByteArray = text.toList.utf8Encode := by
    rw [← String.toByteArray_ofList, String.ofList_toList]
  rw [textBytes, String.toUTF8, encoded]
  simp [List.utf8Encode, utf8]

theorem IsAscii.encode (ascii : IsAscii character) :
    String.utf8EncodeChar character = [character.toUInt8] := by
  have small : character.utf8Size = 1 := by
    rw [Char.utf8Size_eq_one_iff, UInt32.le_iff_toNat_le]
    exact Nat.le_of_lt_succ ascii
  rw [String.utf8EncodeChar_eq_singleton small]
  rfl

theorem IsAscii.utf8Size (ascii : IsAscii character) : character.utf8Size = 1 := by
  rw [← String.length_utf8EncodeChar, ascii.encode, List.length_singleton]

theorem byteLength_pos (present : front ≠ []) : 0 < byteLength front :=
  Nat.lt_of_lt_of_le (List.length_pos_iff.mpr present) (length_le_byteLength front)

theorem isAscii_of_all (all : front.all (fun character => decide (IsAscii character)) = true) :
    ∀ character ∈ front, IsAscii character := fun character member =>
  of_decide_eq_true (List.all_eq_true.mp all character member)

theorem byteLength_of_ascii (ascii : ∀ character ∈ front, IsAscii character) :
    byteLength front = front.length := by
  induction front with
  | nil => rfl
  | cons character front ih =>
      obtain ⟨first, others⟩ := List.forall_mem_cons.mp ascii
      rw [byteLength_cons, first.utf8Size, ih others, List.length_cons, Nat.add_comm]

/-- Every byte of a character that is not ASCII is greater than the ASCII codes. -/
theorem high_encode (wide : ¬ IsAscii character) :
    ∀ byte ∈ String.utf8EncodeChar character, 128 ≤ byte.toNat := by
  have code : character.val.toNat = character.toNat := rfl
  have large : ¬ character.toNat ≤ 127 := by
    simp only [IsAscii] at wide
    omega
  have lifted : ∀ number, 128 ≤ number → number < 256 → 128 ≤ (UInt8.ofNat number).toNat := by
    intro number low high
    rwa [UInt8.toNat_ofNat', Nat.mod_eq_of_lt high]
  intro byte member
  simp only [String.utf8EncodeChar, code, if_neg large] at member
  split at member
  · simp only [List.mem_cons, List.not_mem_nil, or_false] at member
    rcases member with rfl | rfl <;> exact lifted _ (by omega) (by omega)
  · split at member <;> simp only [List.mem_cons, List.not_mem_nil, or_false] at member
    · rcases member with rfl | rfl | rfl <;> exact lifted _ (by omega) (by omega)
    · rcases member with rfl | rfl | rfl | rfl <;> exact lifted _ (by omega) (by omega)

/-- A character starts with its one byte, or with a byte greater than the ASCII codes. -/
theorem utf8_cons_cases (character : Char) (text : List Char) :
    (IsAscii character ∧ utf8 (character :: text) = character.toUInt8 :: utf8 text) ∨
      ¬ IsAscii character ∧ ∃ byte inner, utf8 (character :: text) = byte :: (inner ++ utf8 text) ∧
        character.utf8Size = 1 + inner.length ∧ 128 ≤ byte.toNat ∧ ∀ byte ∈ inner, 128 ≤ byte.toNat := by
  by_cases ascii : IsAscii character
  · exact .inl ⟨ascii, by rw [utf8_cons, ascii.encode, List.singleton_append]⟩
  · have high := high_encode ascii
    have size := String.length_utf8EncodeChar character
    rw [utf8_cons]
    cases encoded : String.utf8EncodeChar character with
    | nil =>
        have := character.utf8Size_pos
        simp [encoded] at size
        omega
    | cons byte inner =>
        rw [encoded] at high size
        refine .inr ⟨ascii, byte, inner, rfl, ?_, high byte List.mem_cons_self, fun byte member =>
          high byte (List.mem_cons_of_mem _ member)⟩
        rw [← size, List.length_cons, Nat.add_comm]

theorem map_utf8_of_small (small : ∀ byte ∈ utf8 text, byte.toNat < 128) :
    (utf8 text).map (fun byte => Char.ofNat byte.toNat) = text := by
  induction text with
  | nil => rfl
  | cons character text ih =>
      rw [utf8_cons, List.forall_mem_append] at small
      have ascii : IsAscii character := by
        refine Decidable.byContradiction fun wide => ?_
        obtain ⟨byte, inside⟩ := List.exists_mem_of_length_pos
          (String.length_utf8EncodeChar character ▸ character.utf8Size_pos)
        exact Nat.not_lt.mpr (high_encode wide byte inside) (small.1 byte inside)
      have code : character.toUInt8.toNat = character.toNat := Nat.mod_eq_of_lt (Nat.lt_trans ascii (by decide))
      rw [utf8_cons, ascii.encode, List.singleton_append, List.map_cons, ih small.2, code, Char.ofNat_toNat]

@[simp] theorem characters_eq (text : String) : characters text = text.toList := by
  unfold characters
  dsimp only
  split
  · next all =>
    rw [← textBytes, textBytes_eq_utf8] at all ⊢
    refine map_utf8_of_small fun byte member => ?_
    simpa [UInt8.lt_iff_toNat_lt] using List.all_eq_true.mp all byte member
  · rfl

/-! ## Bytes compared with ASCII characters -/

theorem IsAscii.byteIs (ascii : IsAscii character) (test : Char → Bool) :
    byteIs test character.toUInt8 = test character := by
  have code : character.toUInt8.toNat = character.toNat := by
    have small : character.toNat < 256 := Nat.lt_trans ascii (by decide)
    exact Nat.mod_eq_of_lt small
  have small : character.toNat < 128 := ascii
  simp [Text.byteIs, code, small]

theorem byteIs_high (high : 128 ≤ byte.toNat) (test : Char → Bool) : byteIs test byte = false := by
  simp [byteIs, Nat.not_lt.mpr high]

/-- The first byte of a character tells whether the character is one of some ASCII characters. -/
theorem byteIs_head {test : Char → Bool} {byte : UInt8} {more : List UInt8}
    (only : ∀ character, test character = true → IsAscii character)
    (encoded : utf8 (character :: front) = byte :: more) : byteIs test byte = test character := by
  obtain ⟨ascii, single⟩ | ⟨wide, first, inner, several, -, high, -⟩ := utf8_cons_cases character front
  · obtain ⟨rfl, -⟩ := List.cons.inj (single.symm.trans encoded)
    exact ascii.byteIs test
  · obtain ⟨rfl, -⟩ := List.cons.inj (several.symm.trans encoded)
    rw [byteIs_high high, eq_comm, Bool.eq_false_iff]
    exact fun holds => wide (only _ holds)

theorem toUInt8_inj_of_ascii (ascii : IsAscii character) (same : IsAscii other) :
    character.toUInt8 = other.toUInt8 ↔ character = other := by
  refine ⟨fun equal => ?_, congrArg _⟩
  have reads := ascii.byteIs (· == other)
  rw [equal, same.byteIs, beq_self_eq_true] at reads
  exact beq_iff_eq.mp reads.symm

theorem IsAscii.ne_high (ascii : IsAscii character) (high : 128 ≤ byte.toNat) : character.toUInt8 ≠ byte := by
  intro same
  have itself := ascii.byteIs fun _ => true
  rw [same, byteIs_high high] at itself
  contradiction

/-- The bytes of some ASCII characters start the bytes of a text exactly when the characters start the text. -/
theorem utf8_prefix_iff {pattern : List Char} (ascii : ∀ character ∈ pattern, IsAscii character) :
    utf8 pattern <+: utf8 front ↔ pattern <+: front := by
  induction pattern generalizing front with
  | nil => simp
  | cons first pattern ih =>
      have firstAscii := ascii first List.mem_cons_self
      have later : ∀ character ∈ pattern, IsAscii character := fun character member =>
        ascii character (List.mem_cons_of_mem _ member)
      rw [utf8_cons, firstAscii.encode, List.singleton_append]
      cases front with
      | nil => simp
      | cons character front =>
          rw [List.cons_prefix_cons]
          obtain ⟨single, encoded⟩ | ⟨wide, byte, inner, encoded, -, high, -⟩ := utf8_cons_cases character front
          · rw [encoded, List.cons_prefix_cons, ih later, toUInt8_inj_of_ascii firstAscii single]
          · rw [encoded, List.cons_prefix_cons]
            exact iff_of_false (fun starts => firstAscii.ne_high high starts.1)
              fun starts => wide (starts.1 ▸ firstAscii)

theorem not_utf8_prefix_high {pattern : List Char} (ascii : IsAscii character) (high : 128 ≤ byte.toNat) :
    ¬ utf8 (character :: pattern) <+: byte :: rest := by
  rw [utf8_cons, ascii.encode, List.singleton_append, List.cons_prefix_cons]
  exact fun starts => ascii.ne_high high starts.1

/-! ## Standing at an offset -/

namespace Stands

theorem start (bytes : List UInt8) : Stands bytes 0 bytes :=
  ⟨Nat.zero_le _, rfl⟩

theorem bytesFrom? (stands : Stands bytes offset rest) : bytesFrom? bytes offset = some rest := by
  rw [Text.bytesFrom?, if_pos stands.within, stands.drop]

theorem length_eq (stands : Stands bytes offset rest) : offset + rest.length = bytes.length := by
  rw [← stands.drop, List.length_drop, Nat.add_sub_cancel' stands.within]

theorem head (stands : Stands bytes offset (byte :: rest)) : bytes[offset]? = some byte := by
  rw [← Nat.add_zero offset, ← List.getElem?_drop, stands.drop]
  rfl

theorem lt (stands : Stands bytes offset (byte :: rest)) : offset < bytes.length := by
  have := stands.length_eq
  simp only [List.length_cons] at this
  omega

theorem done (stands : Stands bytes offset []) : bytes[offset]? = none := by
  rw [← Nat.add_zero offset, ← List.getElem?_drop, stands.drop]
  rfl

theorem not_lt (stands : Stands bytes offset []) : ¬ offset < bytes.length := by
  rw [← stands.length_eq]
  exact Nat.lt_irrefl _

theorem skip (stands : Stands bytes offset (inner ++ rest)) : Stands bytes (offset + inner.length) rest where
  within := by
    have := stands.length_eq
    simp only [List.length_append] at this
    omega
  drop := by rw [← List.drop_drop, stands.drop, List.drop_left]

theorem tail (stands : Stands bytes offset (byte :: rest)) : Stands bytes (offset + 1) rest :=
  skip (show Stands bytes offset ([byte] ++ rest) from stands)

theorem skipText (stands : Stands bytes offset (utf8 (front ++ back))) :
    Stands bytes (offset + byteLength front) (utf8 back) := by
  rw [← length_utf8]
  exact skip (utf8_append front back ▸ stands)

theorem next (stands : Stands bytes offset (utf8 (character :: front))) :
    Stands bytes (offset + character.utf8Size) (utf8 front) :=
  skipText (show Stands bytes offset (utf8 ([character] ++ front)) from stands)

theorem ofText (front back : List Char) : Stands (utf8 (front ++ back)) (byteLength front) (utf8 back) := by
  have stands := (start (utf8 (front ++ back))).skipText
  rwa [Nat.zero_add] at stands

theorem exists_head (stands : Stands bytes offset (utf8 (character :: front))) :
    ∃ byte, bytes[offset]? = some byte ∧ ∀ test : Char → Bool,
      (∀ character, test character = true → IsAscii character) → byteIs test byte = test character := by
  obtain ⟨byte, more, encoded⟩ : ∃ byte more, utf8 (character :: front) = byte :: more := by
    obtain ⟨-, encoded⟩ | ⟨-, byte, inner, encoded, -⟩ := utf8_cons_cases character front <;>
      exact ⟨_, _, encoded⟩
  exact ⟨byte, (encoded ▸ stands).head, fun test only => byteIs_head only encoded⟩

theorem any_head {test : Char → Bool} (stands : Stands bytes offset (utf8 front))
    (only : ∀ character, test character = true → IsAscii character) :
    bytes[offset]?.any (byteIs test) = front.head?.any test := by
  cases front with
  | nil => rw [stands.done]; rfl
  | cons character front =>
      obtain ⟨byte, head, reads⟩ := stands.exists_head
      rw [head]
      exact reads test only

theorem text_lt (stands : Stands bytes offset (utf8 (character :: front))) : offset < bytes.length := by
  obtain ⟨byte, head, -⟩ := stands.exists_head
  exact (List.getElem?_eq_some_iff.mp head).1

/-- A reader that steps over every byte above the ASCII codes steps over any number of them. -/
theorem past {α : Type} {reader : Nat → α} (stands : Stands bytes offset (inner ++ rest))
    (high : ∀ byte ∈ inner, 128 ≤ byte.toNat)
    (steps : ∀ {offset byte rest}, Stands bytes offset (byte :: rest) → 128 ≤ byte.toNat →
      reader offset = reader (offset + 1)) :
    reader offset = reader (offset + inner.length) := by
  induction inner generalizing offset with
  | nil => rfl
  | cons byte inner ih =>
      have next := ih stands.tail fun byte member => high byte (List.mem_cons_of_mem _ member)
      rw [steps stands (high byte List.mem_cons_self), next, List.length_cons, Nat.add_assoc,
        Nat.add_comm 1]

theorem inside {α : Type} {reader : Nat → α} (stands : Stands bytes offset (utf8 (character :: front)))
    (steps : ∀ {offset byte rest}, Stands bytes offset (byte :: rest) → 128 ≤ byte.toNat →
      reader offset = reader (offset + 1)) :
    reader (offset + 1) = reader (offset + character.utf8Size) := by
  obtain ⟨ascii, -⟩ | ⟨-, byte, inner, encoded, size, -, high⟩ := utf8_cons_cases character front
  · rw [ascii.utf8Size]
  · rw [encoded] at stands
    rw [stands.tail.past high steps, size, Nat.add_assoc]

end Stands

/-! ## Slices -/

theorem sliceFrom?_append (front back : List Char) :
    sliceFrom? (front ++ back) (byteLength front) = some back := by
  have cut := slice?_append front back []
  rwa [List.append_nil, ← byteLength_append] at cut

end TypedLiterals.Text
