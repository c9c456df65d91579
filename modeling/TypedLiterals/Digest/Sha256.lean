/-!
SHA-256.

A message is padded to whole blocks of sixteen words, each block is expanded to sixty-four words, and
these are stirred into eight words of state. A digest is written as 64 lower-case hexadecimal digits.
-/

namespace TypedLiterals.Digest

namespace Sha256

/-- The first 32 bits of the fractional parts of the cube roots of the first 64 primes. -/
def roundConstants : List UInt32 :=
  [0x428a2f98, 0x71374491, 0xb5c0fbcf, 0xe9b5dba5, 0x3956c25b, 0x59f111f1, 0x923f82a4, 0xab1c5ed5,
   0xd807aa98, 0x12835b01, 0x243185be, 0x550c7dc3, 0x72be5d74, 0x80deb1fe, 0x9bdc06a7, 0xc19bf174,
   0xe49b69c1, 0xefbe4786, 0x0fc19dc6, 0x240ca1cc, 0x2de92c6f, 0x4a7484aa, 0x5cb0a9dc, 0x76f988da,
   0x983e5152, 0xa831c66d, 0xb00327c8, 0xbf597fc7, 0xc6e00bf3, 0xd5a79147, 0x06ca6351, 0x14292967,
   0x27b70a85, 0x2e1b2138, 0x4d2c6dfc, 0x53380d13, 0x650a7354, 0x766a0abb, 0x81c2c92e, 0x92722c85,
   0xa2bfe8a1, 0xa81a664b, 0xc24b8b70, 0xc76c51a3, 0xd192e819, 0xd6990624, 0xf40e3585, 0x106aa070,
   0x19a4c116, 0x1e376c08, 0x2748774c, 0x34b0bcb5, 0x391c0cb3, 0x4ed8aa4a, 0x5b9cca4f, 0x682e6ff3,
   0x748f82ee, 0x78a5636f, 0x84c87814, 0x8cc70208, 0x90befffa, 0xa4506ceb, 0xbef9a3f7, 0xc67178f2]

/-- The eight words that a digest grows from. -/
structure State where
  a : UInt32
  b : UInt32
  c : UInt32
  d : UInt32
  e : UInt32
  f : UInt32
  g : UInt32
  h : UInt32

/-- The first 32 bits of the fractional parts of the square roots of the first 8 primes. -/
def State.initial : State :=
  ⟨0x6a09e667, 0xbb67ae85, 0x3c6ef372, 0xa54ff53a, 0x510e527f, 0x9b05688c, 0x1f83d9ab, 0x5be0cd19⟩

def rotateRight (word count : UInt32) : UInt32 :=
  (word >>> count) ||| (word <<< (32 - count))

/-- One round: mixes a word of the schedule and its constant into the state. -/
def State.round (state : State) (input : UInt32 × UInt32) : State :=
  let big1 := rotateRight state.e 6 ^^^ rotateRight state.e 11 ^^^ rotateRight state.e 25
  let choice := (state.e &&& state.f) ^^^ (~~~state.e &&& state.g)
  let first := state.h + big1 + choice + input.1 + input.2
  let big0 := rotateRight state.a 2 ^^^ rotateRight state.a 13 ^^^ rotateRight state.a 22
  let majority := (state.a &&& state.b) ^^^ (state.a &&& state.c) ^^^ (state.b &&& state.c)
  ⟨first + (big0 + majority), state.a, state.b, state.c, state.d + first, state.e, state.f, state.g⟩

def State.add (left right : State) : State :=
  ⟨left.a + right.a, left.b + right.b, left.c + right.c, left.d + right.d,
   left.e + right.e, left.f + right.f, left.g + right.g, left.h + right.h⟩

/-- The schedule after `count` more words; the words made so far come last first. -/
def extendSchedule : Nat → List UInt32 → List UInt32
  | 0, words => words
  | count + 1, words =>
    let near := words.getD 1 0
    let far := words.getD 14 0
    let small0 := rotateRight far 7 ^^^ rotateRight far 18 ^^^ (far >>> 3)
    let small1 := rotateRight near 17 ^^^ rotateRight near 19 ^^^ (near >>> 10)
    extendSchedule count ((small1 + words.getD 6 0 + small0 + words.getD 15 0) :: words)

/-- The state after one more block of the message. -/
def State.absorb (state : State) (block : List UInt32) : State :=
  let schedule := (extendSchedule 48 block.reverse).reverse
  state.add ((roundConstants.zip schedule).foldl State.round state)

/-- Big-endian words; a last group of fewer than four bytes makes no word. -/
def words : List UInt8 → List UInt32
  | a :: b :: c :: d :: rest =>
    ((a.toUInt32 <<< 24) ||| (b.toUInt32 <<< 16) ||| (c.toUInt32 <<< 8) ||| d.toUInt32) :: words rest
  | _ => []

/-- The big-endian bytes of the lowest `count` bytes of a number. -/
def bigEndian : Nat → Nat → List UInt8
  | 0, _ => []
  | count + 1, value => bigEndian count (value / 256) ++ [UInt8.ofNat value]

/-- What follows a message of `length` bytes to fill its last block. -/
def padding (length : Nat) : List UInt8 :=
  0x80 :: List.replicate ((119 - length % 64) % 64) 0 ++ bigEndian 8 (length * 8)

/-- Absorbs whole blocks; `count` bounds their number. -/
def State.absorbAll : Nat → State → List UInt32 → State
  | 0, state, _ => state
  | count + 1, state, rest => absorbAll count (state.absorb (rest.take 16)) (rest.drop 16)

def State.toList (state : State) : List UInt32 :=
  [state.a, state.b, state.c, state.d, state.e, state.f, state.g, state.h]

/-- The state after the whole padded message. -/
def digest (message : List UInt8) : State :=
  let filled := message ++ padding message.length
  State.initial.absorbAll (filled.length / 64) (words filled)

def hexDigit (value : Nat) : Char :=
  ['0', '1', '2', '3', '4', '5', '6', '7', '8', '9', 'a', 'b', 'c', 'd', 'e', 'f'].getD value '0'

/-- The lowest `count` hexadecimal digits of a number. -/
def hexDigits : Nat → Nat → List Char
  | 0, _ => []
  | count + 1, value => hexDigits count (value / 16) ++ [hexDigit (value % 16)]

end Sha256

/-- The SHA-256 digest of a byte sequence in hexadecimal. -/
def sha256 (message : List UInt8) : String :=
  String.ofList ((Sha256.digest message).toList.flatMap fun word => Sha256.hexDigits 8 word.toNat)

end TypedLiterals.Digest
