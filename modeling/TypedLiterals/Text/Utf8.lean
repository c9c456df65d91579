import TypedLiterals.Text.Character

/-!
Reading bytes that need not be valid UTF-8.

Every longest piece that could have begun a character, and every byte that could not, is read as one
replacement character.
-/

namespace TypedLiterals.Text

def replacementCharacter : Char := '\uFFFD'

def isContinuation (byte : UInt8) : Bool :=
  0x80 ≤ byte && byte ≤ 0xBF

/-- The second bytes that may follow a first one. -/
def allowsSecond (first second : UInt8) : Bool :=
  if first = 0xE0 then 0xA0 ≤ second && second ≤ 0xBF
  else if first = 0xED then 0x80 ≤ second && second ≤ 0x9F
  else if first = 0xF0 then 0x90 ≤ second && second ≤ 0xBF
  else if first = 0xF4 then 0x80 ≤ second && second ≤ 0x8F
  else isContinuation second

/-- The number of bytes in a character by its first byte; zero for bytes that begin none. -/
def unitLength (first : UInt8) : Nat :=
  if first < 0x80 then 1
  else if 0xC2 ≤ first && first ≤ 0xDF then 2
  else if 0xE0 ≤ first && first ≤ 0xEF then 3
  else if 0xF0 ≤ first && first ≤ 0xF4 then 4
  else 0

/-- The lowest six bits of a byte. -/
def payload (byte : UInt8) : Nat := byte.toNat % 64

/-- The character that starts with a byte, and how many of the following bytes belong to it. -/
def decodeUnit (first : UInt8) (rest : List UInt8) : Char × Nat :=
  match unitLength first, rest with
  | 1, _ => (Char.ofNat first.toNat, 0)
  | 2, second :: _ =>
    if allowsSecond first second then
      (Char.ofNat (first.toNat % 32 * 64 + payload second), 1)
    else (replacementCharacter, 0)
  | 3, second :: later =>
    if allowsSecond first second then
      match later with
      | third :: _ =>
        if isContinuation third then
          (Char.ofNat ((first.toNat % 16 * 64 + payload second) * 64 + payload third), 2)
        else (replacementCharacter, 1)
      | [] => (replacementCharacter, 1)
    else (replacementCharacter, 0)
  | 4, second :: later =>
    if allowsSecond first second then
      match later with
      | third :: last =>
        if isContinuation third then
          match last with
          | fourth :: _ =>
            if isContinuation fourth then
              (Char.ofNat (((first.toNat % 8 * 64 + payload second) * 64 + payload third) * 64 +
                payload fourth), 3)
            else (replacementCharacter, 2)
          | [] => (replacementCharacter, 2)
        else (replacementCharacter, 1)
      | [] => (replacementCharacter, 1)
    else (replacementCharacter, 0)
  | _, _ => (replacementCharacter, 0)

/-- The characters of a byte sequence. The first `skip` bytes belong to a character already read. -/
def decodeFrom : (skip : Nat) → List UInt8 → List Char
  | _, [] => []
  | skip + 1, _ :: rest => decodeFrom skip rest
  | 0, first :: rest =>
    (decodeUnit first rest).1 :: decodeFrom (decodeUnit first rest).2 rest

/-- The characters of some bytes; each ill-formed part becomes one replacement character. -/
def decodeLossy (bytes : List UInt8) : List Char :=
  decodeFrom 0 bytes

end TypedLiterals.Text
