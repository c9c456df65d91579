import TypedLiterals.Text.Bytes

/-!
Stretches of a text, given by the byte offsets of their ends.
-/

namespace TypedLiterals

/-- A stretch of a text: the bytes from `start` up to `stop`. -/
structure Span where
  start : Nat
  stop : Nat
deriving DecidableEq, Repr, Inhabited

namespace Span

/-- Spans in order of their start, then of their end. -/
def le (left right : Span) : Bool :=
  left.start < right.start || (left.start == right.start && left.stop ≤ right.stop)

/-- Puts an element among elements in order of their spans, before those of the same span. -/
def insertBy (span : α → Span) (element : α) : List α → List α
  | [] => [element]
  | next :: rest =>
    if (span element).le (span next) then element :: next :: rest
    else next :: insertBy span element rest

/-- Elements in order of their spans. Those of one span keep their order. -/
def sortBy (span : α → Span) (elements : List α) : List α :=
  elements.foldr (insertBy span) []

/-- Whether a span lies in a text and cuts no character. -/
def fits (span : Span) (text : List Char) : Bool :=
  span.start ≤ span.stop && Text.isBoundary text span.start && Text.isBoundary text span.stop

/-- The characters a span covers; nothing when it does not fit. -/
def textIn (span : Span) (text : List Char) : List Char :=
  (Text.slice? text span.start span.stop).getD []

end Span

end TypedLiterals
