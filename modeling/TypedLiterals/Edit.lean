import TypedLiterals.Text.Span

/-!
Edits of a text.

All edits of a batch refer to the text as it was, so none shifts another. They are written in order of
position; insertions at one offset keep the order of the batch, and edits that cover the same text are
refused.
-/

namespace TypedLiterals

/-- A stretch of a text and what to write in its place. -/
structure Edit where
  span : Span
  replacement : String
deriving DecidableEq, Repr

/-- Why a batch of edits cannot be made. -/
inductive Edit.Error where
  | overlapping (first second : Span)
  | outOfBounds (span : Span) (length : Nat)
deriving DecidableEq, Repr

/-- The text shown when edits cannot be made. -/
def Edit.Error.message : Edit.Error → String
  | overlapping first second =>
    s!"overlapping edits at bytes {first.start}..{first.stop} and {second.start}..{second.stop}"
  | outOfBounds span length =>
    s!"edit {span.start}..{span.stop} is outside the source ({length} bytes)"

namespace Edit

/-- The edit that inserts a text. -/
def insertion (offset : Nat) (text : String) : Edit :=
  ⟨⟨offset, offset⟩, text⟩

/-- Writes edits that are in order. The text `rest` starts at offset `cursor` of `text`, where the edit
with the span `previous` ended. -/
def applyFrom (text : List Char) (cursor : Nat) (previous : Span) (rest : List Char) :
    List Edit → Except Error (List Char)
  | [] => .ok rest
  | edit :: later =>
    if !edit.span.fits text then .error (.outOfBounds edit.span (Text.byteLength text))
    else if edit.span.start < cursor then .error (.overlapping previous edit.span)
    else
      match Text.splitAtByte? (edit.span.start - cursor) rest with
      | none => .error (.outOfBounds edit.span (Text.byteLength text))
      | some (kept, tail) =>
        match Text.splitAtByte? (edit.span.stop - edit.span.start) tail with
        | none => .error (.outOfBounds edit.span (Text.byteLength text))
        | some (_, after) =>
          (applyFrom text edit.span.stop edit.span after later).map fun written =>
            kept ++ Text.characters edit.replacement ++ written

/-- The text with a batch of edits made. -/
def applyAll (text : String) (batch : List Edit) : Except Error String :=
  (applyFrom (Text.characters text) 0 ⟨0, 0⟩ (Text.characters text) (Span.sortBy span batch)).map String.ofList

end Edit

end TypedLiterals
