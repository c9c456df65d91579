import TypedLiterals.Glob.Pattern

/-!
Matching paths against patterns, byte by byte.

A piece takes some bytes from the front of a path; `rests` are all that it can leave. A pattern matches
a path when its pieces, one after another, can leave nothing.
-/

namespace TypedLiterals

namespace Glob

def slashByte : UInt8 := 47

def characterBytes (character : Char) : List UInt8 :=
  String.utf8EncodeChar character

/-- Whether a byte belongs to a range of characters. Between the last byte of the first character and
the first byte of the last one, every byte does. -/
def inRange (byte : UInt8) (first last : Char) : Bool :=
  if first = last then (characterBytes first).contains byte
  else
    let low := characterBytes first
    let high := characterBytes last
    low.dropLast.contains byte || high.tail.contains byte ||
      (low.getLast?.any (· ≤ byte) && high.head?.any (byte ≤ ·))

/-- Whether a byte belongs to one of the ranges of a class. -/
def inClass (byte : UInt8) (ranges : List (Char × Char)) : Bool :=
  ranges.any fun range => inRange byte range.1 range.2

/-- What remains after each slash. -/
def afterSlashes : List UInt8 → List (List UInt8)
  | [] => []
  | byte :: rest => if byte = slashByte then rest :: afterSlashes rest else afterSlashes rest

/-- What remains when any number of bytes is taken, but no slash if `separate` is on. -/
def afterBytes (separate : Bool) : List UInt8 → List (List UInt8)
  | [] => [[]]
  | byte :: rest =>
    if separate && byte = slashByte then [byte :: rest] else (byte :: rest) :: afterBytes separate rest

/-- What remains when a byte that passes a test is taken. -/
def afterByte (test : UInt8 → Bool) : List UInt8 → List (List UInt8)
  | [] => []
  | byte :: rest => if test byte then [rest] else []

mutual

/-- What a piece can leave of a path. With `separate` on, wildcards do not take slashes. -/
def Piece.rests (separate : Bool) (path : List UInt8) : Piece → List (List UInt8)
  | .literal character => ((characterBytes character).isPrefixOf? path).toList
  | .anyByte => afterByte (fun byte => !(separate && byte = slashByte)) path
  | .anyBytes => afterBytes separate path
  | .leading => path :: afterSlashes path
  | .between =>
    (afterByte (· = slashByte) path).flatMap fun rest => rest :: afterSlashes rest
  | .trailing => (afterByte (· = slashByte) path).flatMap (afterBytes false)
  | .class negated ranges => afterByte (fun byte => inClass byte ranges != negated) path
  | .choice [] => [path]
  | .choice (first :: others) =>
    restsOfBranch separate [path] first ++ restsOfChoice separate path others

/-- What a sequence of pieces can leave of any of several paths. -/
def restsOfBranch (separate : Bool) (paths : List (List UInt8)) : List Piece → List (List UInt8)
  | [] => paths
  | piece :: later =>
    restsOfBranch separate (paths.flatMap fun path => piece.rests separate path).eraseDups later

/-- What any of several branches can leave of a path. -/
def restsOfChoice (separate : Bool) (path : List UInt8) : List (List Piece) → List (List UInt8)
  | [] => []
  | branch :: others =>
    restsOfBranch separate [path] branch ++ restsOfChoice separate path others

end

end Glob

/-- A pattern for paths, and whether its wildcards stop at slashes. -/
structure Glob where
  pieces : List Glob.Piece
  separate : Bool

namespace Glob

/-- The pattern `**` alone matches every path. -/
def isMatch (glob : Glob) (path : String) : Bool :=
  match glob.pieces with
  | [.leading] => true
  | pieces => (restsOfBranch glob.separate [path.toUTF8.data.toList] pieces).contains []

end Glob

end TypedLiterals
