import Mathlib.Algebra.Group.Even
import Mathlib.Algebra.Group.Nat.Even
import TypedLiterals.Syntax.Lexeme

/-!
Plain text between backticks.

A backslash takes the next character with it, so whether a backtick ends a template or a `$` before a brace
begins a substitution depends on the number of backslashes in front of it.
-/

namespace TypedLiterals.Syntax

variable {text front body rest : List Char} {character : Char}

/-- The number of backslashes that a text ends in. -/
def backslashes (text : List Char) : Nat :=
  (text.reverse.takeWhile (· = '\\')).length

/-- Whether a text can stand between backticks: in front of each backtick and of each `$` before a brace it has
an odd number of backslashes, and at its end an even one. -/
structure IsTemplateBody (body : List Char) : Prop where
  backtick : ∀ front back, body = front ++ '\x60' :: back → ¬ Even (backslashes front)
  substitution : ∀ front back, body = front ++ '$' :: '{' :: back → ¬ Even (backslashes front)
  ends : Even (backslashes body)

theorem backslashes_le (text : List Char) : backslashes text ≤ text.length := by
  have shorter : (text.reverse.takeWhile (· = '\\')).Sublist text.reverse := List.takeWhile_sublist _
  simpa [backslashes] using shorter.length_le

theorem backslashes_cons (character : Char) (text : List Char) :
    backslashes (character :: text) =
      if backslashes text = text.length then text.length + (if character = '\\' then 1 else 0)
      else backslashes text := by
  rw [backslashes, List.reverse_cons, List.takeWhile_append, ← backslashes, List.length_reverse]
  split
  · by_cases escape : character = '\\' <;> simp [escape]
  · rfl

theorem backslashes_cons_of_ne (plain : character ≠ '\\') (text : List Char) :
    backslashes (character :: text) = backslashes text := by
  rw [backslashes_cons, if_neg plain]
  split <;> omega

theorem even_backslashes_escape (character : Char) (text : List Char) :
    Even (backslashes ('\\' :: character :: text)) ↔ Even (backslashes text) := by
  have bounded := backslashes_le text
  rw [backslashes_cons, backslashes_cons, if_pos rfl, List.length_cons]
  by_cases all : backslashes text = text.length
  · rw [if_pos all, all]
    by_cases escape : character = '\\'
    · simp [escape, Nat.even_add_one]
    · simp [escape]
  · rw [if_neg all, if_neg (by omega)]

namespace IsTemplateBody

theorem nil : IsTemplateBody [] :=
  ⟨by simp, by simp, by simp [backslashes]⟩

theorem escape_iff (character : Char) (body : List Char) :
    IsTemplateBody ('\\' :: character :: body) ↔ IsTemplateBody body := by
  have odd : ¬ Even (backslashes ['\\']) := by decide
  constructor
  · intro whole
    refine ⟨fun front back split => ?_, fun front back split => ?_, ?_⟩
    · rw [← even_backslashes_escape character]
      exact whole.backtick _ back (by rw [split]; rfl)
    · rw [← even_backslashes_escape character]
      exact whole.substitution _ back (by rw [split]; rfl)
    · exact (even_backslashes_escape character body).mp whole.ends
  · intro inner
    refine ⟨fun front back split => ?_, fun front back split => ?_, ?_⟩
    · rcases front with _ | ⟨first, _ | ⟨second, front⟩⟩
      · cases split
      · cases split
        exact odd
      · cases split
        rw [even_backslashes_escape]
        exact inner.backtick front back rfl
    · rcases front with _ | ⟨first, _ | ⟨second, front⟩⟩
      · cases split
      · cases split
        exact odd
      · cases split
        rw [even_backslashes_escape]
        exact inner.substitution front back rfl
    · exact (even_backslashes_escape character body).mpr inner.ends

theorem cons_iff (plain : character ≠ '\\') (inside : character ≠ '\x60')
    (alone : ∀ more, character = '$' → body ≠ '{' :: more) :
    IsTemplateBody (character :: body) ↔ IsTemplateBody body := by
  constructor
  · intro whole
    refine ⟨fun front back split => ?_, fun front back split => ?_, ?_⟩
    · rw [← backslashes_cons_of_ne plain]
      exact whole.backtick _ back (by rw [split]; rfl)
    · rw [← backslashes_cons_of_ne plain]
      exact whole.substitution _ back (by rw [split]; rfl)
    · rw [← backslashes_cons_of_ne plain]
      exact whole.ends
  · intro inner
    refine ⟨fun front back split => ?_, fun front back split => ?_, ?_⟩
    · rcases front with _ | ⟨first, front⟩
      · cases split
        exact absurd rfl inside
      · cases split
        rw [backslashes_cons_of_ne plain]
        exact inner.backtick front back rfl
    · rcases front with _ | ⟨first, front⟩
      · cases split
        exact absurd rfl (alone back rfl)
      · cases split
        rw [backslashes_cons_of_ne plain]
        exact inner.substitution front back rfl
    · rw [backslashes_cons_of_ne plain]
      exact inner.ends

end IsTemplateBody

theorem templateText_cons (plain : character ≠ '\\') (inside : character ≠ '\x60')
    (alone : ∀ more, character = '$' → text ≠ '{' :: more) :
    templateText (character :: text) = (character :: (templateText text).1, (templateText text).2) := by
  rw [templateText.eq_def]
  split
  · next same => cases same
  · next same =>
    cases same
    exact absurd rfl plain
  · next same =>
    cases same
    exact absurd rfl (alone _ rfl)
  · next same =>
    cases same
    rw [if_neg inside]

/-- A template is read up to a backtick exactly when what stands in front of it is a body. -/
theorem templateText_eq_iff :
    templateText text = (body, '\x60' :: rest) ↔ IsTemplateBody body ∧ text = body ++ '\x60' :: rest := by
  constructor
  · intro read
    induction text using templateText.induct generalizing body with
    | case1 => simp [templateText] at read
    | case2 character later ih =>
        rw [templateText, Prod.mk.injEq] at read
        obtain ⟨rfl, ends⟩ := read
        obtain ⟨inner, split⟩ := ih (Prod.ext rfl ends)
        exact ⟨(IsTemplateBody.escape_iff character _).mpr inner, by rw [List.cons_append, List.cons_append, ← split]⟩
    | case3 later => simp [templateText] at read
    | case4 later =>
        have ended : templateText ('\x60' :: later) = ([], '\x60' :: later) := by simp [templateText]
        rw [ended] at read
        cases read
        exact ⟨.nil, rfl⟩
    | case5 first later escapes substitutes inside ih =>
        have plain : first ≠ '\\' := by
          rintro rfl
          cases later with
          | nil => simp [templateText] at read
          | cons next later => exact escapes next later rfl rfl
        rw [templateText_cons plain inside substitutes, Prod.mk.injEq] at read
        obtain ⟨rfl, ends⟩ := read
        obtain ⟨inner, split⟩ := ih (Prod.ext rfl ends)
        refine ⟨(IsTemplateBody.cons_iff plain inside fun more same brace => ?_).mpr inner, ?_⟩
        · exact substitutes (more ++ '\x60' :: rest) same (split.trans (congrArg (· ++ '\x60' :: rest) brace))
        · rw [List.cons_append, ← split]
  · rintro ⟨isBody, rfl⟩
    induction body using templateText.induct with
    | case1 => simp [templateText]
    | case2 character later ih =>
        rw [List.cons_append, List.cons_append, templateText, ih ((IsTemplateBody.escape_iff _ _).mp isBody)]
    | case3 later => exact absurd (by decide) (isBody.substitution [] later rfl)
    | case4 later => exact absurd (by decide) (isBody.backtick [] later rfl)
    | case5 first later escapes substitutes inside ih =>
        have plain : first ≠ '\\' := by
          rintro rfl
          cases later with
          | nil => exact absurd isBody.ends (by decide)
          | cons next later => exact escapes next later rfl rfl
        have inner := (IsTemplateBody.cons_iff plain inside substitutes).mp isBody
        rw [List.cons_append, templateText_cons plain inside, ih inner]
        rintro more same brace
        cases later with
        | nil => cases brace
        | cons next later => exact substitutes later same (by rw [(List.cons.inj brace).1])

end TypedLiterals.Syntax
