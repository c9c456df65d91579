import Mathlib.Data.List.Basic
import TypedLiterals.Engine.Request

/-!
Replacing a pattern in braces everywhere in a text.

Such a pattern never overlaps another one, so a text can be cut at its occurrences. Where some occurrences are
marked, replacing the pattern everywhere is replacing it at the marks if and only if there are no others.
-/

namespace TypedLiterals.Request

/-! ## Occurrences of a pattern -/

/-- How often a pattern stands in a text. -/
def occurrences (pattern : List Char) : List Char → Nat
  | [] => 0
  | character :: rest =>
    occurrences pattern rest + if pattern.isPrefixOf (character :: rest) then 1 else 0

/-- An opening brace, some characters that are no braces, and a closing brace. -/
def Braced (pattern : List Char) : Prop :=
  ∃ name, pattern = '{' :: (name ++ ['}']) ∧ '{' ∉ name ∧ '}' ∉ name

/-- A text cut at the occurrences of a pattern, read from left to right. -/
inductive Cut (pattern : List Char) : List Char → List (Option Char) → Prop
  | nil : Cut pattern [] []
  | hit : Cut pattern rest marked → Cut pattern (pattern ++ rest) (none :: marked)
  | skip : ¬ pattern <+: character :: rest → Cut pattern rest marked →
    Cut pattern (character :: rest) (some character :: marked)

/-- The characters of a cut text with a value in each hole. -/
def spell (value : List Char) (marked : List (Option Char)) : List Char :=
  marked.flatMap fun mark => mark.elim value fun character => [character]

variable {pattern other value text rest front : List Char} {marked : List (Option Char)} {character : Char}

theorem Braced.exists_cons (braced : Braced pattern) :
    ∃ tail, pattern = '{' :: tail ∧ tail ≠ [] ∧ '{' ∉ tail := by
  obtain ⟨name, rfl, noOpening, _⟩ := braced
  exact ⟨name ++ ['}'], rfl, by simp, by simp [noOpening]⟩

theorem Braced.ne_nil (braced : Braced pattern) : pattern ≠ [] := by
  obtain ⟨tail, rfl, _⟩ := braced.exists_cons
  simp

theorem takeWhile_closing (plain : '}' ∉ front) (rest : List Char) :
    (front ++ '}' :: rest).takeWhile (· != '}') = front := by
  have passes : ∀ character ∈ front, (character != '}') = true := fun character member => by
    simpa using fun same : character = '}' => plain (same ▸ member)
  rw [List.takeWhile_append_of_pos passes]
  simp

theorem Braced.eq_of_prefix (braced : Braced pattern) (otherBraced : Braced other)
    (begins : pattern <+: other ++ rest) : pattern = other := by
  obtain ⟨name, rfl, _, noClosing⟩ := braced
  obtain ⟨otherName, rfl, _, otherNoClosing⟩ := otherBraced
  obtain ⟨behind, same⟩ := begins
  have bodies : name ++ '}' :: behind = otherName ++ '}' :: rest := by simpa using same
  have names := congrArg (List.takeWhile (· != '}')) bodies
  rw [takeWhile_closing noClosing, takeWhile_closing otherNoClosing] at names
  rw [names]

theorem Braced.not_prefix (braced : Braced pattern) (apart : character ≠ '{') :
    ¬ pattern <+: character :: rest := by
  obtain ⟨tail, rfl, _, _⟩ := braced.exists_cons
  simp [Ne.symm apart]

@[simp] theorem occurrences_cons (character : Char) (rest : List Char) : occurrences pattern (character :: rest) =
    occurrences pattern rest + if pattern <+: character :: rest then 1 else 0 := by
  simp [occurrences]

theorem Braced.occurrences_append (braced : Braced pattern) (plain : '{' ∉ front) (rest : List Char) :
    occurrences pattern (front ++ rest) = occurrences pattern rest := by
  induction front with
  | nil => rfl
  | cons character front ih =>
      simp only [List.mem_cons, not_or] at plain
      simp [ih plain.2, braced.not_prefix (Ne.symm plain.1)]

/-- A braced pattern at the start of a text adds an occurrence of itself and of no other. -/
theorem Braced.occurrences_append_braced (braced : Braced pattern) (otherBraced : Braced other)
    (rest : List Char) :
    occurrences pattern (other ++ rest) = occurrences pattern rest + if pattern = other then 1 else 0 := by
  have first : pattern <+: other ++ rest ↔ pattern = other :=
    ⟨braced.eq_of_prefix otherBraced, fun same => same ▸ List.prefix_append _ _⟩
  obtain ⟨tail, split, _, plain⟩ := otherBraced.exists_cons
  subst split
  rw [List.cons_append] at first ⊢
  rw [occurrences_cons, braced.occurrences_append plain, if_congr first rfl rfl]

theorem occurrences_le_append (front rest : List Char) :
    occurrences pattern rest ≤ occurrences pattern (front ++ rest) := by
  induction front with
  | nil => exact Nat.le_refl _
  | cons character front ih => rw [List.cons_append, occurrences_cons]; omega

/-! ## Replacing a pattern -/

@[simp] theorem spell_nil : spell value [] = [] := rfl

@[simp] theorem spell_none (marked : List (Option Char)) :
    spell value (none :: marked) = value ++ spell value marked :=
  rfl

@[simp] theorem spell_some (character : Char) (marked : List (Option Char)) :
    spell value (some character :: marked) = character :: spell value marked :=
  rfl

theorem exists_cut (present : pattern ≠ []) (text : List Char) : ∃ marked, Cut pattern text marked := by
  induction size : text.length using Nat.strongRecOn generalizing text with
  | ind length ih =>
      cases text with
      | nil => exact ⟨[], .nil⟩
      | cons character rest =>
          by_cases begins : pattern <+: character :: rest
          · obtain ⟨behind, same⟩ := begins
            have shorter : behind.length < length := by
              have positive := List.length_pos_iff.mpr present
              rw [← size, ← same, List.length_append]
              omega
            obtain ⟨marked, cut⟩ := ih behind.length shorter behind rfl
            exact ⟨none :: marked, same ▸ .hit cut⟩
          · obtain ⟨marked, cut⟩ := ih rest.length (by simp [← size]) rest rfl
            exact ⟨some character :: marked, .skip begins cut⟩

theorem Cut.spell_self (cut : Cut pattern text marked) : spell pattern marked = text := by
  induction cut with
  | nil => rfl
  | hit _ ih => rw [spell_none, ih]
  | skip _ _ ih => rw [spell_some, ih]

theorem replaceFrom_eq (pattern value : List Char) (skip : Nat) (text : List Char) :
    replaceFrom pattern value skip text = replace pattern value (text.drop skip) := by
  induction text generalizing skip with
  | nil => cases skip <;> rfl
  | cons character rest ih =>
      cases skip with
      | zero => rfl
      | succ skip => rw [replaceFrom, ih, List.drop_succ_cons]

theorem replace_append (present : pattern ≠ []) (value rest : List Char) :
    replace pattern value (pattern ++ rest) = value ++ replace pattern value rest := by
  cases pattern with
  | nil => contradiction
  | cons first tail =>
      have begins : (first :: tail).isPrefixOf (first :: (tail ++ rest)) = true := by simp
      rw [replace, List.cons_append, replaceFrom, if_pos begins, replaceFrom_eq]
      simp

theorem replace_cons (apart : ¬ pattern <+: character :: rest) (value : List Char) :
    replace pattern value (character :: rest) = character :: replace pattern value rest := by
  rw [replace, replaceFrom, if_neg (by simpa using apart), replace]

theorem Cut.replace_eq (cut : Cut pattern text marked) (present : pattern ≠ []) (value : List Char) :
    replace pattern value text = spell value marked := by
  induction cut with
  | nil => rfl
  | hit _ ih => rw [replace_append present, ih, spell_none]
  | skip apart _ ih => rw [replace_cons apart, ih, spell_some]

/-- Each occurrence gives the characters of the pattern away for those of the value. -/
theorem countP_replace (braced : Braced pattern) (counted : Char → Bool) (value text : List Char) :
    (replace pattern value text).countP counted + occurrences pattern text * pattern.countP counted =
      text.countP counted + occurrences pattern text * value.countP counted := by
  obtain ⟨marked, cut⟩ := exists_cut braced.ne_nil text
  rw [cut.replace_eq braced.ne_nil]
  induction cut with
  | nil => simp [occurrences]
  | hit _ ih =>
      rw [braced.occurrences_append_braced braced]
      simp [Nat.add_mul]
      omega
  | skip apart _ ih =>
      simp [apart, List.countP_cons]
      omega

theorem replace_self (braced : Braced pattern) (text : List Char) : replace pattern pattern text = text := by
  obtain ⟨marked, cut⟩ := exists_cut braced.ne_nil text
  rw [cut.replace_eq braced.ne_nil, cut.spell_self]

/-- What has no opening brace stands at the start of a text whatever is put in its holes. -/
theorem prefix_spell (braced : Braced pattern) (plain : '{' ∉ front) (begins : front <+: spell pattern marked)
    (value : List Char) : front <+: spell value marked := by
  obtain ⟨tail, rfl, _, _⟩ := braced.exists_cons
  induction marked generalizing front with
  | nil => simpa using begins
  | cons mark marked ih =>
      cases front with
      | nil => exact List.nil_prefix
      | cons first front =>
          simp only [List.mem_cons, not_or] at plain
          cases mark with
          | none =>
              rw [spell_none, List.cons_append, List.cons_prefix_cons] at begins
              exact absurd begins.1.symm plain.1
          | some character =>
              rw [spell_some, List.cons_prefix_cons] at begins
              rw [spell_some, List.cons_prefix_cons]
              exact ⟨begins.1, ih plain.2 begins.2⟩

theorem prefix_cons_spell (braced : Braced pattern) (otherBraced : Braced other)
    (begins : other <+: character :: spell pattern marked) (value : List Char) :
    other <+: character :: spell value marked := by
  obtain ⟨tail, rfl, _, plain⟩ := otherBraced.exists_cons
  rw [List.cons_prefix_cons] at begins ⊢
  exact ⟨begins.1, prefix_spell braced plain begins.2 value⟩

/-- Replacing a pattern takes no occurrence of another one away. -/
theorem occurrences_le_replace (braced : Braced pattern) (otherBraced : Braced other) (apart : other ≠ pattern)
    (value text : List Char) : occurrences other text ≤ occurrences other (replace pattern value text) := by
  obtain ⟨marked, cut⟩ := exists_cut braced.ne_nil text
  rw [cut.replace_eq braced.ne_nil]
  induction cut with
  | nil => exact Nat.le_refl _
  | hit _ ih =>
      rw [otherBraced.occurrences_append_braced braced, if_neg apart]
      exact Nat.le_trans ih (occurrences_le_append _ _)
  | @skip character rest marked _ cut ih =>
      rw [spell_some, occurrences_cons, occurrences_cons]
      by_cases begins : other <+: character :: rest
      · rw [if_pos begins, if_pos (prefix_cons_spell braced otherBraced (cut.spell_self.symm ▸ begins) value)]
        omega
      · rw [if_neg begins]
        omega

/-! ## Replacing the marked occurrences only -/

theorem count_le_occurrences (braced : Braced pattern) (marked : List (Option Char)) :
    marked.count none ≤ occurrences pattern (spell pattern marked) := by
  induction marked with
  | nil => exact Nat.le_refl _
  | cons mark marked ih =>
      cases mark with
      | none =>
          rw [spell_none, braced.occurrences_append_braced braced]
          simpa using ih
      | some character =>
          rw [spell_some, occurrences_cons]
          simp
          omega

theorem countP_spell (counted : Char → Bool) (pattern value : List Char) (marked : List (Option Char)) :
    (spell value marked).countP counted + marked.count none * pattern.countP counted =
      (spell pattern marked).countP counted + marked.count none * value.countP counted := by
  induction marked with
  | nil => simp
  | cons mark marked ih =>
      cases mark with
      | none => simp [Nat.add_mul]; omega
      | some character => simp [List.countP_cons]; omega

theorem replace_spell_of_count (braced : Braced pattern) (value : List Char)
    (counted : occurrences pattern (spell pattern marked) = marked.count none) :
    replace pattern value (spell pattern marked) = spell value marked := by
  induction marked with
  | nil => rfl
  | cons mark marked ih =>
      cases mark with
      | none =>
          rw [spell_none, braced.occurrences_append_braced braced] at counted
          rw [spell_none, replace_append braced.ne_nil, spell_none, ih (by simpa using counted)]
      | some character =>
          have least := count_le_occurrences braced marked
          rw [spell_some, occurrences_cons, List.count_cons_of_ne (by simp)] at counted
          have apart : ¬ pattern <+: character :: spell pattern marked := fun begins => by
            rw [if_pos begins] at counted
            omega
          rw [if_neg apart] at counted
          rw [spell_some, replace_cons apart, spell_some, ih counted]

/-- A value of another length shows in the length of the text, each time that it is put in. -/
theorem count_of_length_ne (braced : Braced pattern) (sizes : value.length ≠ pattern.length)
    (same : replace pattern value (spell pattern marked) = spell value marked) :
    occurrences pattern (spell pattern marked) = marked.count none := by
  have replaced := countP_replace braced (fun _ => true) value (spell pattern marked)
  have spelled := countP_spell (fun _ => true) pattern value marked
  obtain ⟨more, split⟩ := Nat.exists_eq_add_of_le (count_le_occurrences braced marked)
  simp only [List.countP_true, same, split, Nat.add_mul] at replaced spelled
  have none : more = 0 := by
    by_contra some
    exact sizes (Nat.eq_of_mul_eq_mul_left (Nat.pos_of_ne_zero some) (by omega))
  omega

/-- A value of the same length would stand where the text has the pattern. -/
theorem count_of_length_eq (braced : Braced pattern) (sizes : value.length = pattern.length)
    (changed : value ≠ pattern) (same : replace pattern value (spell pattern marked) = spell value marked) :
    occurrences pattern (spell pattern marked) = marked.count none := by
  induction marked with
  | nil => rfl
  | cons mark marked ih =>
      cases mark with
      | none =>
          rw [spell_none, replace_append braced.ne_nil, spell_none] at same
          rw [spell_none, braced.occurrences_append_braced braced, ih (List.append_cancel_left same)]
          simp
      | some character =>
          by_cases begins : pattern <+: character :: spell pattern marked
          · have kept := prefix_cons_spell braced braced begins value
            obtain ⟨behind, split⟩ := begins
            rw [spell_some, ← split, replace_append braced.ne_nil, spell_some] at same
            have put : value <+: character :: spell value marked := ⟨_, same⟩
            have within := List.prefix_of_prefix_length_le put kept (Nat.le_of_eq sizes)
            exact absurd (within.eq_of_length sizes) changed
          · rw [spell_some, replace_cons begins, spell_some] at same
            rw [spell_some, occurrences_cons, if_neg begins, ih (List.cons.inj same).2]
            simp

/-- Replacing a pattern everywhere changes the marked occurrences only if and only if there are no others, or
nothing is changed. -/
theorem replace_spell_iff (braced : Braced pattern) (value : List Char) (marked : List (Option Char)) :
    replace pattern value (spell pattern marked) = spell value marked ↔
      occurrences pattern (spell pattern marked) = marked.count none ∨ value = pattern := by
  constructor
  · intro same
    by_cases changed : value = pattern
    · exact .inr changed
    · by_cases sizes : value.length = pattern.length
      · exact .inl (count_of_length_eq braced sizes changed same)
      · exact .inl (count_of_length_ne braced sizes same)
  · rintro (counted | rfl)
    · exact replace_spell_of_count braced value counted
    · exact replace_self braced _

end TypedLiterals.Request
