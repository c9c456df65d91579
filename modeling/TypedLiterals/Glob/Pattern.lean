/-!
Patterns for paths.

`?` stands for one byte and `*` for any number of them. `**` as a whole component stands for any number
of components. `[ab]`, `[a-z]` and `[!a]` stand for one byte of a class, `{a,b}` for one of several
patterns, and a backslash takes away the meaning of the character after it.
-/

namespace TypedLiterals.Glob

/-- Why a text is no pattern. -/
inductive Fault where
  | unclosedClass
  | invalidRange (first last : Char)
  | unopenedGroup
  | unclosedGroup
  | danglingEscape
deriving DecidableEq, Repr

/-- The text shown for a fault in a pattern. -/
def Fault.message : Fault → String
  | unclosedClass => "unclosed character class; missing ']'"
  | invalidRange first last => s!"invalid range; '{first}' > '{last}'"
  | unopenedGroup =>
    "unopened alternate group; missing '\x7b' (maybe escape '\x7d' with '[\x7d]'?)"
  | unclosedGroup =>
    "unclosed alternate group; missing '\x7d' (maybe escape '\x7b' with '[\x7b]'?)"
  | danglingEscape => "dangling '\\'"

/-- A part of a pattern. -/
inductive Piece where
  | literal (character : Char)
  | anyByte
  | anyBytes
  /-- `**` and a slash at the start: nothing, or any components. -/
  | leading
  /-- `**` between two slashes, with both of them. -/
  | between
  /-- A slash and `**` at the end. -/
  | trailing
  | class (negated : Bool) (ranges : List (Char × Char))
  /-- One of several patterns; nothing when there are none. -/
  | choice (branches : List (List Piece))

/-! ## Classes -/

/-- Moves the end of the range that was read last. -/
def extendRange (last : Char) : List (Char × Char) → Except Fault (List (Char × Char))
  | [] => .ok []
  | (first, _) :: earlier =>
    if last < first then .error (.invalidRange first last) else .ok ((first, last) :: earlier)

/-- The ranges of a class, last first, and the number of characters up to its closing bracket, which
does not close when it is the first member. `dash` tells that a range awaits its end. -/
def readClass (isFirst dash : Bool) (ranges : List (Char × Char)) :
    List Char → Except Fault (List (Char × Char) × Nat)
  | [] => .error .unclosedClass
  | character :: rest => do
    if character = ']' && !isFirst then
      return (if dash then ('-', '-') :: ranges else ranges, 1)
    else if character = '-' && !isFirst && !dash then
      let (all, count) ← readClass false true ranges rest
      return (all, count + 1)
    else
      let next ←
        if dash then extendRange character ranges else pure ((character, character) :: ranges)
      let (all, count) ← readClass false false next rest
      return (all, count + 1)

/-- A class after its opening bracket, and the number of characters in it. -/
def readWholeClass (text : List Char) : Except Fault (Piece × Nat) := do
  let negated := text.head? = some '!' || text.head? = some '^'
  let (ranges, count) ← readClass true false [] (if negated then text.drop 1 else text)
  return (.class negated ranges.reverse, if negated then count + 1 else count)

/-! ## Patterns -/

/-- What has been read: the pieces of the innermost branch, and around it the open groups with their
finished branches and the branch that each stands in. All lists have the last item first. -/
structure Progress where
  branch : List Piece := []
  groups : List (List (List Piece) × List Piece) := []

def isVoidPiece : Piece → Bool
  | .choice [] => true
  | _ => false

/-- A branch that stands for nothing is left out of its group. -/
def isVoidBranch (branch : List Piece) : Bool :=
  branch.all isVoidPiece

namespace Progress

def push (progress : Progress) (piece : Piece) : Progress :=
  { progress with branch := piece :: progress.branch }

def openGroup (progress : Progress) : Progress :=
  ⟨[], ([], progress.branch) :: progress.groups⟩

/-- A comma outside all groups stands for itself. -/
def nextBranch (progress : Progress) : Progress :=
  match progress.groups with
  | [] => progress.push (.literal ',')
  | (finished, outer) :: around => ⟨[], (progress.branch :: finished, outer) :: around⟩

/-- Ends the innermost group of alternatives. -/
def closeGroup (progress : Progress) : Except Fault Progress :=
  match progress.groups with
  | [] => .error .unopenedGroup
  | (finished, outer) :: around =>
    let branches := ((progress.branch :: finished).reverse.map List.reverse).filter (!isVoidBranch ·)
    .ok ⟨.choice branches :: outer, around⟩

/-- Puts a piece that stands for a slash in the place of the slash. -/
def replaceSlash (progress : Progress) (piece : Piece) : Progress :=
  match progress.branch with
  | .leading :: _ => progress
  | .trailing :: _ => progress
  | _ :: earlier => { progress with branch := piece :: earlier }
  | [] => progress.push piece

/-- Two stars, between the character before them and the text after them; also the number of
characters taken from that text. -/
def pushStars (progress : Progress) (previous : Option Char) (text : List Char) : Progress × Nat :=
  let plain := ((progress.push .anyBytes).push .anyBytes, 0)
  let grouped := !progress.groups.isEmpty
  if progress.branch.isEmpty then
    match text.head? with
    | none => (progress.push .leading, 0)
    | some '/' => (progress.push .leading, 1)
    | some _ => plain
  else if previous ≠ some '/' && !(grouped && (previous = some ',' || previous = some '\x7b')) then
    plain
  else
    match text.head? with
    | none => (progress.replaceSlash .trailing, 0)
    | some '/' => (progress.replaceSlash .between, 1)
    | some next =>
      if grouped && (next = ',' || next = '\x7d') then (progress.replaceSlash .trailing, 0) else plain

end Progress

/-- Reads a pattern from where `previous` was the last character. The first `skip` characters belong to
a piece that has been read. -/
def readFrom (progress : Progress) (previous : Option Char) :
    (skip : Nat) → List Char → Except Fault Progress
  | _, [] => .ok progress
  | skip + 1, character :: rest => readFrom progress (some character) skip rest
  | 0, character :: rest => do
    if character = '?' then readFrom (progress.push .anyByte) (some character) 0 rest
    else if character = '*' then
      if rest.head? = some '*' then
        let (next, taken) := progress.pushStars previous (rest.drop 1)
        readFrom next (some character) (taken + 1) rest
      else readFrom (progress.push .anyBytes) (some character) 0 rest
    else if character = '[' then
      let (piece, count) ← readWholeClass rest
      readFrom (progress.push piece) (some character) count rest
    else if character = '\x7b' then readFrom progress.openGroup (some character) 0 rest
    else if character = '\x7d' then readFrom (← progress.closeGroup) (some character) 0 rest
    else if character = ',' then readFrom progress.nextBranch (some character) 0 rest
    else if character = '\\' then
      match rest with
      | escaped :: _ => readFrom (progress.push (.literal escaped)) (some character) 1 rest
      | [] => .error .danglingEscape
    else readFrom (progress.push (.literal character)) (some character) 0 rest

/-- The pieces of a pattern. -/
def read (text : String) : Except Fault (List Piece) := do
  let progress ← readFrom {} none 0 text.toList
  if progress.groups.isEmpty then return progress.branch.reverse else .error .unclosedGroup

end TypedLiterals.Glob
