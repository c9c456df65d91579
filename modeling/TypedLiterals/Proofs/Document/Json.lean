import Mathlib.Data.List.Basic
import TypedLiterals.Document.Json
import TypedLiterals.Proofs.Text.Encoding

/-!
Reading back JSON documents that were written.

Documents of objects, arrays and strings are read as the values they were written from, whatever follows
them. The amount of fuel that suffices for a value is the length of its text.
-/

namespace TypedLiterals.JsonValue

/-- Values without truth values and numbers. -/
inductive Textual : JsonValue → Prop
  | string (text : String) : Textual (.string text)
  | array {items : List JsonValue} : (∀ item ∈ items, Textual item) → Textual (.array items)
  | object {members : List (String × JsonValue)} :
      (∀ member ∈ members, Textual member.2) → Textual (.object members)

/-! ## Strings -/

theorem readString_length (front text : List Char) :
    readString front.length (front ++ text) = readString 0 text := by
  induction front with
  | nil => rfl
  | cons character rest ih => exact ih

theorem readString_unescape {front text : List Char} {character : Char}
    (escaped : unescape? (front ++ text) = some (character, front.length)) :
    readString 0 ('\\' :: (front ++ text)) =
      (readString 0 text).map fun parts => (character :: parts.1, parts.2) := by
  simp [readString, escaped, readString_length]

theorem hexNumber?_control :
    ∀ code < 32, hexNumber? ['0', '0', hexDigit (code / 16), hexDigit (code % 16)] = some code := by
  decide

theorem unescape?_control {code : Nat} (control : code < 32) (text : List Char) :
    unescape? (['u', '0', '0', hexDigit (code / 16), hexDigit (code % 16)] ++ text) =
      some (Char.ofNat code, 5) := by
  have high : ¬ (0xD800 ≤ code ∧ code ≤ 0xDBFF) := by omega
  have low : ¬ (0xDC00 ≤ code ∧ code ≤ 0xDFFF) := by omega
  simp [unescape?, hexNumber?_control code control, high, low]

/-- A character as it is written in a string reads as that character. -/
theorem readString_escape (character : Char) (text : List Char) :
    readString 0 (escape character ++ text) =
      (readString 0 text).map fun parts => (character :: parts.1, parts.2) := by
  unfold escape
  split
  · next same => subst same; exact @readString_unescape ['\x22'] _ _ rfl
  split
  · next same => subst same; exact @readString_unescape ['\\'] _ _ rfl
  split
  · next same => subst same; exact @readString_unescape ['b'] _ _ rfl
  split
  · next same => subst same; exact @readString_unescape ['f'] _ _ rfl
  split
  · next same => subst same; exact @readString_unescape ['n'] _ _ rfl
  split
  · next same => subst same; exact @readString_unescape ['r'] _ _ rfl
  split
  · next same => subst same; exact @readString_unescape ['t'] _ _ rfl
  split
  · next control =>
      have escaped := unescape?_control control text
      rw [Char.ofNat_toNat] at escaped
      exact readString_unescape escaped
  · next noQuote noEscape _ _ _ _ _ visible =>
      simp [readString, noQuote, noEscape, visible]

theorem readString_quoted (text : String) (rest : List Char) :
    readString 0 (text.toList.flatMap escape ++ '\x22' :: rest) = some (text.toList, rest) := by
  induction text.toList with
  | nil => rfl
  | cons character later ih =>
      rw [List.flatMap_cons, List.append_assoc, readString_escape, ih]
      rfl

/-! ## Blanks -/

theorem skipBlank_lineBreak (level : Nat) (text : List Char) :
    skipBlank (lineBreak level ++ text) = skipBlank text := by
  have blanks : ∀ character ∈ lineBreak level, isBlank character = true := by
    intro character member
    rcases List.mem_cons.mp member with rfl | spaces
    · decide
    · rw [List.eq_of_mem_replicate spaces]
      decide
  exact List.dropWhile_append_of_pos blanks

theorem skipBlank_cons {character : Char} (text : List Char) (visible : isBlank character = false) :
    skipBlank (character :: text) = character :: text := by
  simp [skipBlank, visible]

theorem readValue_congr (fuel : Nat) {left right : List Char} (same : skipBlank left = skipBlank right) :
    readValue fuel left = readValue fuel right := by
  cases fuel with
  | zero => rfl
  | succ fuel => simp only [readValue, same]

theorem readMember_congr (fuel : Nat) {left right : List Char} (same : skipBlank left = skipBlank right) :
    readMember fuel left = readMember fuel right := by
  cases fuel with
  | zero => rfl
  | succ fuel => simp only [readMember, same]

/-! ## Values -/

/-- Whether a value is read back from its text with as much fuel as the text is long. -/
def ReadsBack (value : JsonValue) : Prop :=
  ∀ level fuel rest, (prettyAt level value).length ≤ fuel →
    readValue fuel (prettyAt level value ++ rest) = some (value, rest)

theorem quoted_append (text : String) (rest : List Char) :
    quoted text ++ rest = '\x22' :: (text.toList.flatMap escape ++ '\x22' :: rest) := by
  simp [quoted]

theorem readsBack_string (text : String) : ReadsBack (.string text) := by
  intro level fuel rest enough
  cases fuel with
  | zero => simp [prettyAt, quoted] at enough
  | succ fuel =>
      rw [prettyAt, quoted_append, readValue, skipBlank_cons _ (by decide)]
      simp [readString_quoted]

theorem readItems_pretty {items : List JsonValue} (each : ∀ item ∈ items, ReadsBack item)
    (level closing fuel : Nat) (rest : List Char) (enough : (prettyItems level items).length < fuel) :
    readItems fuel (prettyItems level items ++ (lineBreak closing ++ ']' :: rest)) =
      some (items, rest) := by
  induction items generalizing fuel with
  | nil =>
      cases fuel with
      | zero => simp at enough
      | succ fuel =>
          rw [prettyItems, List.nil_append, readItems, skipBlank_lineBreak,
            skipBlank_cons _ (by decide)]
          rfl
  | cons item later ih =>
      cases fuel with
      | zero => simp at enough
      | succ fuel =>
          simp only [prettyItems, List.cons_append, List.append_assoc, List.length_cons,
            List.length_append] at enough ⊢
          have read := each item List.mem_cons_self level fuel
            (prettyItems level later ++ (lineBreak closing ++ ']' :: rest)) (by omega)
          rw [readItems, skipBlank_cons _ (by decide)]
          simp only [readValue_congr fuel (skipBlank_lineBreak level _), read, Option.bind_some]
          rw [ih (fun other member => each other (List.mem_cons_of_mem _ member)) fuel (by omega)]
          rfl

theorem readMember_pretty {value : JsonValue} (back : ReadsBack value) (key : String)
    (level fuel : Nat) (rest : List Char) (enough : (prettyAt level value).length < fuel) :
    readMember fuel (quoted key ++ ([':', ' '] ++ (prettyAt level value ++ rest))) =
      some ((key, value), rest) := by
  cases fuel with
  | zero => simp at enough
  | succ fuel =>
      have read := back level fuel rest (by omega)
      have blank : skipBlank (' ' :: (prettyAt level value ++ rest)) =
          skipBlank (prettyAt level value ++ rest) := rfl
      rw [quoted_append, readMember, skipBlank_cons _ (by decide)]
      simp only [readString_quoted, Option.bind_some, List.cons_append, List.nil_append]
      rw [skipBlank_cons _ (by decide)]
      simp only [readValue_congr fuel blank, read, Option.map_some, String.ofList_toList]

theorem readMembers_pretty {members : List (String × JsonValue)}
    (each : ∀ member ∈ members, ReadsBack member.2)
    (level closing fuel : Nat) (rest : List Char) (enough : (prettyMembers level members).length < fuel) :
    readMembers fuel (prettyMembers level members ++ (lineBreak closing ++ '\x7d' :: rest)) =
      some (members, rest) := by
  induction members generalizing fuel with
  | nil =>
      cases fuel with
      | zero => simp at enough
      | succ fuel =>
          rw [prettyMembers, List.nil_append, readMembers, skipBlank_lineBreak,
            skipBlank_cons _ (by decide)]
          rfl
  | cons member later ih =>
      obtain ⟨key, value⟩ := member
      cases fuel with
      | zero => simp at enough
      | succ fuel =>
          simp only [prettyMembers, List.cons_append, List.append_assoc, List.length_cons,
            List.length_append, List.nil_append] at enough ⊢
          have read := readMember_pretty (each _ List.mem_cons_self) key level fuel
            (prettyMembers level later ++ (lineBreak closing ++ '\x7d' :: rest)) (by dsimp only; omega)
          rw [readMembers, skipBlank_cons _ (by decide)]
          simp only [List.cons_append, List.nil_append] at read
          simp only [readMember_congr fuel (skipBlank_lineBreak level _), read, Option.bind_some]
          rw [ih (fun other found => each other (List.mem_cons_of_mem _ found)) fuel (by omega)]
          rfl

theorem exists_prettyAt_cons {value : JsonValue} (textual : Textual value) (level : Nat) :
    ∃ character rest, prettyAt level value = character :: rest ∧
      isBlank character = false ∧ character ≠ ']' := by
  cases textual with
  | string text => exact ⟨'\x22', _, by rw [prettyAt, quoted]; rfl, by decide⟩
  | @array items _ =>
      cases items with
      | nil => exact ⟨'[', _, by rw [prettyAt], by decide⟩
      | cons first rest => exact ⟨'[', _, by rw [prettyAt]; rfl, by decide⟩
  | @object members _ =>
      cases members with
      | nil => exact ⟨'\x7b', _, by rw [prettyAt], by decide⟩
      | cons first rest => exact ⟨'\x7b', _, by rw [prettyAt]; rfl, by decide⟩

theorem readValue_array {text : List Char} (fuel : Nat)
    (opens : (skipBlank text).head? ≠ some ']') :
    readValue (fuel + 1) ('[' :: text) = (readValue fuel text).bind fun first =>
      (readItems fuel first.2).map fun later => (.array (first.1 :: later.1), later.2) := by
  rw [readValue, skipBlank_cons _ (by decide)]
  simp only
  split
  · next same =>
      rw [same] at opens
      exact absurd rfl opens
  · rfl

theorem readValue_object {text : List Char} (fuel : Nat)
    (opens : (skipBlank text).head? ≠ some '\x7d') :
    readValue (fuel + 1) ('\x7b' :: text) = (readMember fuel text).bind fun first =>
      (readMembers fuel first.2).map fun later => (.object (first.1 :: later.1), later.2) := by
  rw [readValue, skipBlank_cons _ (by decide)]
  simp only
  split
  · next same =>
      rw [same] at opens
      exact absurd rfl opens
  · rfl

theorem readsBack_array {items : List JsonValue} (textual : ∀ item ∈ items, Textual item)
    (each : ∀ item ∈ items, ReadsBack item) : ReadsBack (.array items) := by
  intro level fuel rest enough
  cases fuel with
  | zero => cases items <;> simp [prettyAt] at enough
  | succ fuel =>
      cases items with
      | nil =>
          rw [prettyAt, readValue]
          rfl
      | cons first later =>
          obtain ⟨character, tail, begins, visible, opens⟩ :=
            exists_prettyAt_cons (textual first List.mem_cons_self) (level + 1)
          simp only [prettyAt, List.cons_append, List.append_assoc, List.length_cons,
            List.length_append, List.length_nil, List.nil_append] at enough ⊢
          have read := each first List.mem_cons_self (level + 1) fuel
            (prettyItems (level + 1) later ++ (lineBreak level ++ ']' :: rest)) (by omega)
          have readLater := readItems_pretty
            (fun other member => each other (List.mem_cons_of_mem first member))
            (level + 1) level fuel rest (by omega)
          rw [readValue_array, readValue_congr fuel (skipBlank_lineBreak (level + 1) _), read,
            Option.bind_some, readLater]
          · rfl
          · rw [skipBlank_lineBreak, begins, List.cons_append, skipBlank_cons _ visible]
            simpa using opens

theorem readsBack_object {members : List (String × JsonValue)}
    (each : ∀ member ∈ members, ReadsBack member.2) : ReadsBack (.object members) := by
  intro level fuel rest enough
  cases fuel with
  | zero => cases members <;> simp [prettyAt] at enough
  | succ fuel =>
      cases members with
      | nil =>
          rw [prettyAt, readValue]
          rfl
      | cons first later =>
          obtain ⟨key, value⟩ := first
          simp only [prettyAt, List.cons_append, List.append_assoc, List.length_cons,
            List.length_append, List.length_nil, List.nil_append] at enough ⊢
          have read := readMember_pretty (each _ List.mem_cons_self) key (level + 1) fuel
            (prettyMembers (level + 1) later ++ (lineBreak level ++ '\x7d' :: rest))
            (by dsimp only; omega)
          have readLater := readMembers_pretty
            (fun other found => each other (List.mem_cons_of_mem _ found))
            (level + 1) level fuel rest (by omega)
          simp only [List.cons_append, List.nil_append] at read
          rw [readValue_object, readMember_congr fuel (skipBlank_lineBreak (level + 1) _), read,
            Option.bind_some, readLater]
          · rfl
          · rw [skipBlank_lineBreak, quoted_append, skipBlank_cons _ (by decide)]
            simp

theorem Textual.readsBack {value : JsonValue} (textual : Textual value) : ReadsBack value := by
  induction textual with
  | string text => exact readsBack_string text
  | array textual ih => exact readsBack_array textual ih
  | object _ ih => exact readsBack_object ih

theorem read_pretty {value : JsonValue} (textual : Textual value) : read value.pretty = some value := by
  have back := textual.readsBack 0 (2 * (prettyAt 0 value).length + 2) [] (by omega)
  rw [List.append_nil] at back
  rw [read, pretty, Text.characters_eq, String.toList_ofList, back]
  rfl

end TypedLiterals.JsonValue
