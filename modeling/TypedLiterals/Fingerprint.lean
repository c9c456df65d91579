import TypedLiterals.Digest.Sha256
import TypedLiterals.Graphql.Normal

/-!
Fingerprints of literals: the digest of a seed followed by the literal's normal form.

The seed stands for the schema, so a literal gets another fingerprint when the schema changes, and the
normal form keeps formatting out of it.
-/

namespace TypedLiterals

/-- The UTF-8 bytes of a text. -/
def textBytes (text : String) : List UInt8 :=
  text.toUTF8.data.toList

theorem textBytes_append (left right : String) : textBytes (left ++ right) = textBytes left ++ textBytes right := by
  simp [textBytes]

/-- The fingerprint of a literal whose normal form is known. -/
def fingerprintNormal (seed normal : String) : String :=
  Digest.sha256 (textBytes seed ++ textBytes normal)

/-- The fingerprint of a literal as it stands in a source. -/
def fingerprint (seed literal : String) : String :=
  fingerprintNormal seed (Graphql.normalize literal)

end TypedLiterals
