import TypedLiterals.Fingerprint
import TypedLiterals.Proofs.Graphql.Reprint

/-!
What normal forms tell apart.

Two valid texts have the same normal form exactly when they consist of the same tokens up to the way
their block strings are printed. The normal form is itself such a text, so taking it twice changes
nothing, and a fingerprint tells apart what the normal form does as long as the digest does.
-/

namespace TypedLiterals

namespace Graphql

variable {list left right : List Token} {text : String}

theorem printAfter_rendering (before : Token.Kind) (valid : ∀ token ∈ list, token.Valid) :
    Rendering before (list.map Token.reprinted) (printAfter before list) := by
  induction list generalizing before with
  | nil => exact .done .nil
  | cons token rest ih =>
      have first := (valid token List.mem_cons_self).reprinted.1
      have later := ih token.kind fun other member => valid other (List.mem_cons_of_mem _ member)
      rw [printAfter, List.append_assoc]
      refine @Rendering.token _ _ _ token.reprinted _ ?_ ?_ first later
      · split
        · exact .separator (by decide) .nil
        · exact .nil
      · intro separateBefore separateAfter
        have needed : needsSpace before token.kind = true := by
          simpa [needsSpace] using And.intro separateBefore separateAfter
        simp [needed]

theorem printAfter_congr (before : Token.Kind)
    (same : left.map Token.reprinted = right.map Token.reprinted) :
    printAfter before left = printAfter before right := by
  induction left generalizing before right with
  | nil =>
      rw [List.map_nil, eq_comm, List.map_eq_nil_iff] at same
      rw [same]
  | cons token rest ih =>
      cases right with
      | nil => simp at same
      | cons other later =>
          rw [List.map_cons, List.map_cons, List.cons.injEq] at same
          obtain ⟨kind, printed⟩ := Token.mk.inj same.1
          rw [printAfter, printAfter, kind, printed, ih other.kind same.2]

theorem Rendering.valid {before : Token.Kind} {text : List Char} (rendering : Rendering before list text) :
    ∀ token ∈ list, token.Valid := by
  induction rendering with
  | done _ => nofun
  | token _ _ valid _ ih =>
      intro other member
      rcases List.mem_cons.mp member with rfl | later
      · exact valid
      · exact ih other later

theorem normalize_of_renders (renders : Renders list text) :
    normalize text = String.ofList (print list) := by
  rw [normalize, tokens, Rendering.tokensFrom renders]

theorem renders_normalize (renders : Renders list text) :
    Renders (list.map Token.reprinted) (normalize text) := by
  rw [normalize_of_renders renders, Renders, String.toList_ofList]
  exact printAfter_rendering .punctuator (Rendering.valid renders)

theorem map_reprinted_idem (valid : ∀ token ∈ list, token.Valid) :
    (list.map Token.reprinted).map Token.reprinted = list.map Token.reprinted := by
  rw [List.map_map]
  exact List.map_congr_left fun token member => (valid token member).reprinted.2

theorem normalize_eq_iff {leftText rightText : String} (leftRenders : Renders left leftText)
    (rightRenders : Renders right rightText) :
    normalize leftText = normalize rightText ↔
      left.map Token.reprinted = right.map Token.reprinted := by
  constructor
  · intro same
    have leftNormal := Rendering.tokensFrom (renders_normalize leftRenders)
    have rightNormal := Rendering.tokensFrom (renders_normalize rightRenders)
    rw [same, rightNormal] at leftNormal
    exact leftNormal.symm
  · intro same
    rw [normalize_of_renders leftRenders, normalize_of_renders rightRenders]
    exact congrArg String.ofList (printAfter_congr .punctuator same)

theorem normalize_normalize (renders : Renders list text) : normalize (normalize text) = normalize text := by
  rw [normalize_of_renders (renders_normalize renders), normalize_of_renders renders]
  exact congrArg String.ofList
    (printAfter_congr .punctuator (map_reprinted_idem (Rendering.valid renders)))

end Graphql

/-- The bytes that a fingerprint is the digest of. -/
def fingerprintMessage (seed literal : String) : List UInt8 :=
  textBytes seed ++ textBytes (Graphql.normalize literal)

/-- Two messages that a digest does not tell apart. -/
def Digest.Collide (left right : List UInt8) : Prop :=
  left ≠ right ∧ Digest.sha256 left = Digest.sha256 right

theorem Digest.sha256_eq_iff {left right : List UInt8} :
    Digest.sha256 left = Digest.sha256 right ↔ left = right ∨ Digest.Collide left right := by
  constructor
  · intro same
    by_cases equal : left = right
    · exact .inl equal
    · exact .inr ⟨equal, same⟩
  · rintro (rfl | collide)
    · rfl
    · exact collide.2

theorem textBytes_injective {left right : String} (same : textBytes left = textBytes right) :
    left = right := by
  apply String.toByteArray_inj.mp
  apply ByteArray.ext
  exact Array.toList_inj.mp same

theorem fingerprint_eq_iff {seed left right : String} :
    fingerprint seed left = fingerprint seed right ↔
      Graphql.normalize left = Graphql.normalize right ∨
        Digest.Collide (fingerprintMessage seed left) (fingerprintMessage seed right) := by
  have messages : fingerprintMessage seed left = fingerprintMessage seed right ↔
      Graphql.normalize left = Graphql.normalize right := by
    constructor
    · intro same
      exact textBytes_injective (List.append_cancel_left same)
    · intro same
      rw [fingerprintMessage, fingerprintMessage, same]
  rw [← messages]
  exact Digest.sha256_eq_iff

/-- Texts with the same tokens have the same normal form and the same fingerprint however they are
formatted, and only they do, apart from messages that the digest does not tell apart. -/
theorem normalize_discriminates {left right : List Graphql.Token} {leftText rightText : String}
    (leftRenders : Graphql.Renders left leftText) (rightRenders : Graphql.Renders right rightText)
    (seed : String) :
    (Graphql.normalize leftText = Graphql.normalize rightText ↔
      left.map Graphql.Token.reprinted = right.map Graphql.Token.reprinted) ∧
    Graphql.normalize (Graphql.normalize leftText) = Graphql.normalize leftText ∧
    (fingerprint seed leftText = fingerprint seed rightText ↔
      left.map Graphql.Token.reprinted = right.map Graphql.Token.reprinted ∨
        Digest.Collide (fingerprintMessage seed leftText) (fingerprintMessage seed rightText)) := by
  have normal := Graphql.normalize_eq_iff leftRenders rightRenders
  exact ⟨normal, Graphql.normalize_normalize leftRenders, by rw [fingerprint_eq_iff, normal]⟩

open Graphql in
/-- A comment and an indented block string against a text that is written as closely as it may be. -/
theorem normalize_discriminates_indented :
    let name : Token := ⟨.word, ['a']⟩
    let number : Token := ⟨.word, ['-', '1']⟩
    let spread : Token := ⟨.punctuator, ['.', '.', '.']⟩
    let left := [name, ⟨.string, BlockString.quote ['\n', ' ', 'b']⟩, number, spread]
    let right := [name, ⟨.string, BlockString.quote ['b']⟩, number, spread]
    Renders left "#a\ra,\x22\x22\x22\n b\x22\x22\x22\t-1...\n" ∧
    Renders right "a \x22\x22\x22b\x22\x22\x22 -1..." ∧
    normalize "#a\ra,\x22\x22\x22\n b\x22\x22\x22\t-1...\n" =
      normalize "a \x22\x22\x22b\x22\x22\x22 -1..." := by
  intro name number spread left right
  have validName : name.Valid := .name (by decide) nofun
  have one : Unsigned ['1'] :=
    @Unsigned.parts ['1'] _ _ ⟨⟨by simp, by simp⟩, by decide⟩ .absent .absent
  have validNumber : number.Valid := .number (.negative one)
  have plain : BlockString.ValidBody ['b'] := .plain (by decide) (by decide) .nil
  have indented : BlockString.ValidBody ['\n', ' ', 'b'] :=
    .plain (by decide) (by decide) (.plain (by decide) (by decide) plain)
  have comma : Gap [','] := .separator (by decide) .nil
  have tab : Gap ['\t'] := .separator (by decide) .nil
  have space : Gap [' '] := .separator (by decide) .nil
  have leftRenders : Renders left "#a\ra,\x22\x22\x22\n b\x22\x22\x22\t-1...\n" := by
    refine @Rendering.token _ ['#', 'a', '\r'] _ _ _ (@Gap.comment ['a'] _ _ (by simp [isLineEnd]) (by decide) .nil)
      (by decide) validName ?_
    refine @Rendering.token _ [','] _ _ _ comma (by decide) (.blockString indented) ?_
    refine @Rendering.token _ ['\t'] _ _ _ tab (by decide) validNumber ?_
    refine @Rendering.token _ [] _ _ _ .nil (by decide) .spread ?_
    exact .done (.separator (by decide) .nil)
  have rightRenders : Renders right "a \x22\x22\x22b\x22\x22\x22 -1..." := by
    refine @Rendering.token _ [] _ _ _ .nil (by decide) validName ?_
    refine @Rendering.token _ [' '] _ _ _ space (by decide) (.blockString plain) ?_
    refine @Rendering.token _ [' '] _ _ _ space (by decide) validNumber ?_
    exact @Rendering.token _ [] _ _ _ .nil (by decide) .spread (.done .nil)
  exact ⟨leftRenders, rightRenders,
    (normalize_discriminates leftRenders rightRenders "").1.mpr (by decide)⟩

end TypedLiterals
