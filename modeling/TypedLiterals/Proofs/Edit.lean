import Mathlib.Data.List.Basic
import TypedLiterals.Edit
import TypedLiterals.Proofs.Text.Encoding

/-!
What a batch of edits makes of a text.

Edits that can be made cover stretches of the text in order. Between the stretches the text is kept as it
is, only at other offsets, and each stretch gives way to its replacement.
-/

namespace TypedLiterals

namespace Text

theorem eq_nil_of_byteLength {text : List Char} (empty : byteLength text = 0) : text = [] := by
  cases text with
  | nil => rfl
  | cons character rest =>
      have positive := character.utf8Size_pos
      rw [byteLength_cons] at empty
      omega

theorem exists_middle {front back longer rest : List Char} (same : front ++ back = longer ++ rest)
    (shorter : byteLength front ≤ byteLength longer) :
    ∃ middle, longer = front ++ middle ∧ back = middle ++ rest := by
  rcases List.append_eq_append_iff.mp same with ⟨middle, whole, tail⟩ | ⟨middle, whole, tail⟩
  · exact ⟨middle, whole, tail⟩
  · have empty : middle = [] := eq_nil_of_byteLength (by
      rw [whole, byteLength_append] at shorter
      omega)
    subst empty
    exact ⟨[], by simpa using whole.symm, by simpa using tail.symm⟩

end Text

namespace Span

theorem textIn_middle (front word back : List Char) :
    textIn ⟨Text.byteLength front, Text.byteLength front + Text.byteLength word⟩ (front ++ (word ++ back)) =
      word := by
  rw [textIn, Text.slice?, if_pos (Nat.le_add_right _ _), Text.splitAtByte?_append, Option.bind_some,
    Nat.add_sub_cancel_left, Text.splitAtByte?_append]
  rfl

/-- A span that covers something lies in the text. -/
theorem exists_of_textIn {span : Span} {text : List Char} (present : span.textIn text ≠ []) :
    ∃ front back, text = front ++ (span.textIn text ++ back) ∧ Text.byteLength front = span.start ∧
      span.start + Text.byteLength (span.textIn text) = span.stop := by
  unfold textIn Text.slice? at present ⊢
  split at present
  · next ordered =>
    rw [if_pos ordered]
    cases cut : Text.splitAtByte? span.start text with
    | none =>
        rw [cut] at present
        exact absurd rfl present
    | some halves =>
        obtain ⟨front, rest⟩ := halves
        obtain ⟨whole, start⟩ := Text.splitAtByte?_eq_some cut
        cases cutAgain : Text.splitAtByte? (span.stop - span.start) rest with
        | none =>
            rw [cut, Option.bind_some, cutAgain] at present
            exact absurd rfl present
        | some parts =>
            obtain ⟨word, back⟩ := parts
            obtain ⟨tail, length⟩ := Text.splitAtByte?_eq_some cutAgain
            refine ⟨front, back, by simp [cutAgain, tail, whole], start, ?_⟩
            simp [cutAgain, length, ordered]
  · exact absurd rfl present

variable {α : Type} {span : α → Span} {elements : List α}

theorem insertBy_perm (element : α) : (insertBy span element elements).Perm (element :: elements) := by
  induction elements with
  | nil => exact .refl _
  | cons next rest ih =>
      rw [insertBy]
      split
      · exact .refl _
      · exact (ih.cons next).trans (.swap element next rest)

variable (span) in
theorem sortBy_perm : (sortBy span elements).Perm elements := by
  induction elements with
  | nil => exact .refl _
  | cons element rest ih => exact (insertBy_perm element).trans (ih.cons element)

end Span

namespace Edit

open Text (byteLength)

variable {cursor : Nat} {rest written before word after : List Char} {edits earlier later batch : List Edit}
  {edit : Edit}

/-- What edits in order make of a text whose first character has the offset `cursor`. -/
inductive Writes : (cursor : Nat) → (rest : List Char) → List Edit → (written : List Char) → Prop
  | nil {cursor : Nat} {rest : List Char} : Writes cursor rest [] rest
  | cons {cursor : Nat} {kept covered rest written : List Char} {edit : Edit} {later : List Edit} :
      cursor + byteLength kept = edit.span.start →
      edit.span.start + byteLength covered = edit.span.stop →
      Writes edit.span.stop rest later written →
      Writes cursor (kept ++ (covered ++ rest)) (edit :: later) (kept ++ edit.replacement.toList ++ written)

theorem writes_of_applyFrom {text : List Char} {previous : Span}
    (applied : applyFrom text cursor previous rest edits = .ok written) : Writes cursor rest edits written := by
  induction edits generalizing cursor previous rest written with
  | nil =>
      cases applied
      exact .nil
  | cons edit later ih =>
      rw [applyFrom] at applied
      split at applied
      · cases applied
      next inside =>
      split at applied
      · cases applied
      next behind =>
      split at applied
      · cases applied
      next kept tail cut =>
      split at applied
      · cases applied
      next covered behindStop cutAgain =>
      obtain ⟨whole, keptLength⟩ := Text.splitAtByte?_eq_some cut
      obtain ⟨wholeTail, coveredLength⟩ := Text.splitAtByte?_eq_some cutAgain
      cases next : applyFrom text edit.span.stop edit.span behindStop later with
      | error cause =>
          rw [next] at applied
          cases applied
      | ok last =>
          rw [next, Text.characters_eq] at applied
          cases applied
          rw [← whole, ← wholeTail]
          have ordered : edit.span.start ≤ edit.span.stop := by
            simp only [Span.fits, Bool.not_eq_true', Bool.and_eq_false_imp, not_forall,
              Bool.and_eq_true, decide_eq_true_eq] at inside
            exact inside.1.1
          exact .cons (by omega) (by omega) (ih next)

theorem writes_of_applyAll {text result : String} (applied : applyAll text batch = .ok result) :
    Writes 0 text.toList (Span.sortBy span batch) result.toList := by
  rw [applyAll, Text.characters_eq] at applied
  cases made : applyFrom text.toList 0 ⟨0, 0⟩ text.toList (Span.sortBy span batch) with
  | error cause =>
      rw [made] at applied
      cases applied
  | ok written =>
      rw [made] at applied
      cases applied
      rw [String.toList_ofList]
      exact writes_of_applyFrom made

/-- Where an offset of the text behind `cursor` comes to stand, counted from where `cursor` does. -/
def moved (cursor : Nat) : List Edit → Nat → Nat
  | [], offset => offset - cursor
  | edit :: later, offset =>
    if edit.span.stop ≤ offset then
      (edit.span.start - cursor) + byteLength edit.replacement.toList + moved edit.span.stop later offset
    else offset - cursor

/-- A word of the text that no edit touches is kept. -/
theorem Writes.kept (writes : Writes cursor rest edits written) (whole : rest = before ++ (word ++ after))
    (present : word ≠ [])
    (untouched : ∀ edit ∈ edits, edit.span.stop ≤ cursor + byteLength before ∨
      cursor + byteLength before + byteLength word ≤ edit.span.start) :
    ∃ front back, written = front ++ (word ++ back) ∧
      byteLength front = moved cursor edits (cursor + byteLength before) := by
  induction writes generalizing before with
  | nil => exact ⟨before, after, whole, by simp [moved]⟩
  | @cons cursor kept covered rest written edit later start stop writes ih =>
      have positive : 0 < byteLength word := Nat.pos_of_ne_zero fun empty =>
        present (Text.eq_nil_of_byteLength empty)
      obtain ⟨here, others⟩ := List.forall_mem_cons.mp untouched
      by_cases left : edit.span.stop ≤ cursor + byteLength before
      · -- The word stands behind the stretch of this edit.
        obtain ⟨middle, rfl, tail⟩ := Text.exists_middle
          (show (kept ++ covered) ++ rest = before ++ (word ++ after) by rw [← whole, List.append_assoc])
          (by rw [Text.byteLength_append]; omega)
        have offset : edit.span.stop + byteLength middle =
            cursor + byteLength ((kept ++ covered) ++ middle) := by
          rw [Text.byteLength_append, Text.byteLength_append]
          omega
        obtain ⟨front, back, same, place⟩ := ih tail (by rw [offset]; exact others)
        refine ⟨kept ++ edit.replacement.toList ++ front, back, by rw [same]; simp [List.append_assoc], ?_⟩
        rw [moved, if_pos left, Text.byteLength_append, Text.byteLength_append, place, offset]
        omega
      · -- It stands in front of it.
        have right := here.resolve_left left
        obtain ⟨middle, same, tail⟩ := Text.exists_middle
          (show (before ++ word) ++ after = kept ++ (covered ++ rest) by rw [whole, List.append_assoc])
          (by rw [Text.byteLength_append]; omega)
        refine ⟨before, middle ++ edit.replacement.toList ++ written, by simp [same, List.append_assoc], ?_⟩
        rw [moved, if_neg left]
        omega

theorem Writes.le_start (writes : Writes cursor rest edits written) (member : edit ∈ edits) :
    cursor ≤ edit.span.start := by
  induction writes with
  | nil => cases member
  | cons start stop _ ih =>
      rcases List.mem_cons.mp member with rfl | inside
      · omega
      · have := ih inside
        omega

/-- The stretch of an edit gives way to its replacement. What comes after it is what the later edits make of
the text behind the stretch. -/
theorem Writes.replaced (writes : Writes cursor rest edits written)
    (split : edits = earlier ++ edit :: later) (wide : edit.span.start < edit.span.stop) :
    ∃ front back ahead behind, written = front ++ (edit.replacement.toList ++ back) ∧
      byteLength front = moved cursor edits edit.span.start ∧
      rest = ahead ++ behind ∧ cursor + byteLength ahead = edit.span.stop ∧
      Writes edit.span.stop behind later back := by
  induction writes generalizing earlier with
  | nil => simp at split
  | @cons cursor kept covered rest written first others start stop writes ih =>
      cases earlier with
      | nil =>
          cases split
          refine ⟨kept, written, kept ++ covered, rest, by rw [List.append_assoc], ?_,
            by rw [List.append_assoc], by rw [Text.byteLength_append]; omega, writes⟩
          rw [moved, if_neg (by omega)]
          omega
      | cons _ earlier =>
          cases split
          have order := writes.le_start (List.mem_append_right earlier List.mem_cons_self)
          obtain ⟨front, back, ahead, behind, rfl, offset, rfl, place, later⟩ := ih rfl
          refine ⟨kept ++ first.replacement.toList ++ front, back, kept ++ (covered ++ ahead), behind,
            by simp only [List.append_assoc], ?_, by simp only [List.append_assoc], ?_, later⟩
          · rw [moved, if_pos order, Text.byteLength_append, Text.byteLength_append, offset]
            omega
          · rw [Text.byteLength_append, Text.byteLength_append]
            omega

theorem Writes.exists_replacement (writes : Writes cursor rest edits written) (member : edit ∈ edits) :
    ∃ front back, written = front ++ (edit.replacement.toList ++ back) := by
  induction writes with
  | nil => cases member
  | @cons _ kept _ _ written first _ _ _ _ ih =>
      rcases List.mem_cons.mp member with rfl | inside
      · exact ⟨kept, written, List.append_assoc _ _ _⟩
      · obtain ⟨front, back, rfl⟩ := ih inside
        exact ⟨kept ++ first.replacement.toList ++ front, back, by simp only [List.append_assoc]⟩

theorem Writes.head (writes : Writes cursor rest edits written)
    (none : ∀ edit ∈ edits, edit.span.start ≠ cursor) : written.head? = rest.head? := by
  cases writes with
  | nil => rfl
  | @cons _ kept covered rest written edit later start stop writes =>
      cases kept with
      | nil =>
          rw [Text.byteLength_nil, Nat.add_zero] at start
          exact absurd start.symm (none _ List.mem_cons_self)
      | cons first kept => rfl

end Edit

end TypedLiterals
