import TypedLiterals.Proofs.Graphql.Bytewise.BlockString
import TypedLiterals.Proofs.Graphql.OrderMark

/-!
Normal forms, computed byte by byte.

The walk looks at the byte where it stands, has a scanner find the end of what starts there, and cuts the token out of
the text. Each round reads at least one character to its end, so the walk comes to the end of every text, cuts only
between characters, and has written the normal form there.
-/

namespace TypedLiterals.Graphql.Bytewise

open Text (utf8 byteLength byteLength_append byteIs slice? sliceFrom? slice?_append
  sliceFrom?_append isBoundary isBoundary_iff IsAscii Stands)

/-! ## The walk -/

/-- How far a text is read, of which kind the last token was, and what is written for it. -/
structure Walk where
  pos : Nat
  before : Option Token.Kind
  out : List Char

namespace Walk

def start : Walk := ⟨0, none, []⟩

/-- Writes the token up to an offset, behind a space where it would otherwise be read with the last one. -/
def push? (walk : Walk) (source : List Char) (kind : Token.Kind) (stop : Nat) : Option Walk := do
  let token ← slice? source walk.pos stop
  let printed ← reprint? token
  let gap := if kind != .punctuator && walk.before.any (· != .punctuator) then [' '] else []
  some ⟨stop, some kind, walk.out ++ gap ++ printed⟩

/-- One round of the walk. -/
def advance? (walk : Walk) (source : List Char) : Option Walk := do
  let bytes := utf8 source
  let byte ← bytes[walk.pos]?
  if byteIs isSeparator byte then some { walk with pos := walk.pos + 1 }
  else if byteIs (· == '#') byte then do
    let stop ← commentEnd? bytes walk.pos
    some { walk with pos := stop }
  else if byteIs (· == '\x22') byte then do
    let stop ← stringEnd? bytes walk.pos
    walk.push? source .string stop
  else if ← startsSpread? bytes walk.pos byte then walk.push? source .punctuator (walk.pos + 3)
  else if byteIs isPunctuator byte then walk.push? source .punctuator (walk.pos + 1)
  else do
    let rest ← sliceFrom? source walk.pos
    if [byteOrderMark] <+: rest then some { walk with pos := walk.pos + byteOrderMark.utf8Size }
    else do
      let stop ← wordEnd? bytes walk.pos
      walk.push? source .word stop

/-- The rounds from one place on. One that reads nothing would come again for ever, and has no result. -/
def run? (source : List Char) (walk : Walk) : Option Walk :=
  if walk.pos < (utf8 source).length then do
    let next ← walk.advance? source
    if walk.pos < next.pos then run? source next else none
  else some walk
termination_by (utf8 source).length - walk.pos

/-- What the walk comes by in a text. -/
inductive Reached (source : List Char) : Walk → Prop
  | start : Reached source start
  | advance {walk next : Walk} : Reached source walk → walk.advance? source = some next → Reached source next

/-- The walk stands behind one part of a text and has written what comes of it. -/
structure Sound (front rest : List Char) (walk : Walk) : Prop where
  pos : walk.pos = byteLength front
  written : walk.out ++ printAfter (walk.before.getD .punctuator) (tokensFrom 0 rest) =
    print (tokens (front ++ rest))

variable {source front rest taken after : List Char} {walk next : Walk} {kind : Token.Kind} {character : Char}

/-! ## One round -/

theorem advance?_cons (sound : walk.pos = byteLength front) :
    walk.advance? (front ++ character :: rest) =
      if isSeparator character then some { walk with pos := walk.pos + byteLength [character] }
      else if character = '#' then
        some { walk with
          pos := walk.pos + byteLength ('#' :: rest.takeWhile fun character => !isLineEnd character) }
      else if character = '\x22' then
        walk.push? (front ++ character :: rest) .string (walk.pos + byteLength ('\x22' :: (stringRest rest).1))
      else if startsSpread (character :: rest) then
        walk.push? (front ++ character :: rest) .punctuator (walk.pos + byteLength spread)
      else if isPunctuator character then
        walk.push? (front ++ character :: rest) .punctuator (walk.pos + byteLength [character])
      else if character = byteOrderMark then some { walk with pos := walk.pos + byteLength [byteOrderMark] }
      else
        walk.push? (front ++ character :: rest) .word (walk.pos + byteLength (character :: (wordRest rest).1)) := by
  have stands := Stands.ofText front (character :: rest)
  rw [← sound] at stands
  obtain ⟨byte, head, reads⟩ := stands.exists_head
  have comment := reads (· == '#') (isAscii_of_beq (by decide))
  have quote := reads (· == '\x22') (isAscii_of_beq (by decide))
  have commented := commentEnd?_eq stands
  have sliced := sliceFrom?_append front (character :: rest)
  have marked : [byteOrderMark] <+: character :: rest ↔ character = byteOrderMark := by
    simp [eq_comm]
  rw [← sound] at sliced
  simp only [advance?, head, reads isSeparator isAscii_of_isSeparator, comment, quote, commented, sliced, marked,
    reads isPunctuator isAscii_of_isPunctuator, startsSpread?_eq stands head, Option.bind_eq_bind, Option.bind_some,
    beq_iff_eq]
  have single : IsAscii character → byteLength [character] = 1 := fun ascii => ascii.utf8Size
  split
  · next separator => rw [single (isAscii_of_isSeparator character separator)]
  split
  · next hash =>
      subst hash
      rfl
  split
  · next quotes =>
      subst quotes
      rw [stringEnd?_eq stands, Option.bind_some]
  split
  · rfl
  split
  · next punctuator => rw [single (isAscii_of_isPunctuator character punctuator)]
  split
  · rfl
  · next noSeparator noComment noQuote noSpread noPunctuator _ =>
      have begins : endsWord (character :: rest) = false := by
        simp [endsWord, noSeparator, noComment, noQuote, noSpread, noPunctuator]
      rw [wordEnd?_eq stands begins, Option.bind_some]

/-- A round that reads some characters and leaves a sound walk behind them. -/
def Progress (front rest : List Char) (round : Option Walk) : Prop :=
  ∃ taken after next, rest = taken ++ after ∧ taken ≠ [] ∧ round = some next ∧ Sound (front ++ taken) after next

theorem Sound.ignore (sound : Sound front rest walk) (whole : rest = taken ++ after) (present : taken ≠ [])
    (ignored : tokensFrom 0 rest = tokensFrom 0 after) :
    Progress front rest (some { walk with pos := walk.pos + byteLength taken }) := by
  refine ⟨taken, after, _, whole, present, rfl, ?_, ?_⟩
  · rw [sound.pos, byteLength_append]
  · rw [← ignored, List.append_assoc, ← whole]
    exact sound.written

theorem Sound.push (sound : Sound front rest walk) (whole : rest = taken ++ after) (present : taken ≠ [])
    (read : tokensFrom 0 rest = ⟨kind, taken⟩ :: tokensFrom 0 after) :
    Progress front rest (walk.push? (front ++ rest) kind (walk.pos + byteLength taken)) := by
  have written := sound.written
  have cut := slice?_append front taken after
  have gap : (kind != .punctuator && walk.before.any (· != .punctuator)) =
      needsSpace (walk.before.getD .punctuator) kind := by
    cases walk.before <;> simp [needsSpace, Bool.and_comm]
  rw [← whole] at cut
  rw [read, printAfter] at written
  simp only [push?, sound.pos, cut, reprint?_eq, gap, Option.bind_eq_bind, Option.bind_some]
  refine ⟨taken, after, _, whole, present, rfl, (byteLength_append front taken).symm, ?_⟩
  rw [List.append_assoc front, ← whole, ← written]
  simp [Token.printed]

theorem tokensFrom_hash (rest : List Char) :
    tokensFrom 0 ('#' :: rest) = tokensFrom 0 (rest.dropWhile fun character => !isLineEnd character) := by
  have notSeparator : isSeparator '#' = false := by decide
  have behind := tokensFrom_length (rest.takeWhile fun character => !isLineEnd character)
    (rest.dropWhile fun character => !isLineEnd character)
  rw [List.takeWhile_append_dropWhile] at behind
  rw [← behind]
  simp [tokensFrom, notSeparator]

/-- Each round reads some characters and stays sound. -/
theorem Sound.advance (sound : Sound front (character :: rest) walk) :
    Progress front (character :: rest) (walk.advance? (front ++ character :: rest)) := by
  rw [advance?_cons sound.pos]
  split
  · next separator =>
      have whole : character :: rest = [character] ++ rest := rfl
      exact sound.ignore whole (List.cons_ne_nil _ _) (by simp [tokensFrom, separator])
  split
  · next hash =>
      subst hash
      refine sound.ignore ?_ (List.cons_ne_nil _ _) (tokensFrom_hash rest)
      rw [List.cons_append, List.takeWhile_append_dropWhile]
  split
  · next quotes =>
      subst quotes
      have whole : '\x22' :: rest = '\x22' :: (stringRest rest).1 ++ (stringRest rest).2 := by
        rw [List.cons_append, stringRest_append]
      refine sound.push whole (List.cons_ne_nil _ _) ?_
      rw [whole, tokensFrom_string]
      rw [stringRest_append]
  split
  · next starts =>
      obtain ⟨after, same⟩ := startsSpread_iff.mp starts
      exact sound.push same.symm (List.cons_ne_nil _ _) (same ▸ rfl)
  split
  · next punctuator =>
      have whole : character :: rest = [character] ++ rest := rfl
      exact sound.push whole (List.cons_ne_nil _ _) (tokensFrom_punctuator rest punctuator)
  split
  · next mark =>
      subst mark
      have whole : byteOrderMark :: rest = [byteOrderMark] ++ rest := rfl
      exact sound.ignore whole (List.cons_ne_nil _ _) (tokensFrom_mark rest)
  · next noSeparator noComment noQuote noSpread noPunctuator noMark =>
      have behind := tokensFrom_length (wordRest rest).1 (wordRest rest).2
      rw [wordRest_append] at behind
      have whole : character :: rest = character :: (wordRest rest).1 ++ (wordRest rest).2 := by
        rw [List.cons_append, wordRest_append]
      refine sound.push whole (List.cons_ne_nil _ _) ?_
      rw [tokensFrom, if_neg noSeparator, if_neg noComment, if_neg noQuote, if_neg noSpread, if_neg noPunctuator,
        if_neg noMark, behind]

/-- The walk comes to the end of the text. -/
theorem Sound.run (sound : Sound front rest walk) :
    ∃ last, run? (front ++ rest) walk = some last ∧ Sound (front ++ rest) [] last := by
  induction size : rest.length using Nat.strongRecOn generalizing front rest walk with
  | ind count ih =>
      have stands := Stands.ofText front rest
      rw [← sound.pos] at stands
      cases rest with
      | nil =>
          refine ⟨walk, by rw [run?, if_neg stands.not_lt], ?_⟩
          rwa [List.append_nil]
      | cons character rest =>
          obtain ⟨taken, after, next, whole, present, result, later⟩ := sound.advance
          have shorter : after.length < count := by
            have := List.length_pos_of_ne_nil present
            rw [← size, whole, List.length_append]
            omega
          have progress : walk.pos < next.pos := by
            rw [sound.pos, later.pos, byteLength_append]
            exact Nat.lt_add_of_pos_right (Text.byteLength_pos present)
          obtain ⟨last, finished, done⟩ := ih _ shorter later rfl
          rw [List.append_assoc, ← whole] at finished done
          refine ⟨last, ?_, done⟩
          rw [run?, if_pos stands.text_lt, result, Option.bind_eq_bind, Option.bind_some, if_pos progress]
          exact finished

theorem Sound.start (source : List Char) : Sound [] source start :=
  ⟨rfl, rfl⟩

theorem Reached.sound (reached : Reached source walk) :
    ∃ front rest, source = front ++ rest ∧ Sound front rest walk := by
  induction reached with
  | start => exact ⟨[], source, rfl, .start source⟩
  | @advance walk next _ result ih =>
      obtain ⟨front, rest, rfl, sound⟩ := ih
      cases rest with
      | nil =>
          have done := (Stands.ofText front []).done
          rw [← sound.pos] at done
          rw [advance?, done] at result
          cases result
      | cons character rest =>
          obtain ⟨taken, after, found, whole, -, same, later⟩ := sound.advance
          obtain rfl : found = next := Option.some.inj (same.symm.trans result)
          exact ⟨front ++ taken, after, by rw [whole, List.append_assoc], later⟩

end Walk

/-! ## Every text -/

/-- Whether an offset lies behind another one, between two characters of a text or at its end. -/
def Behind (source : List Char) (start stop : Nat) : Prop :=
  start < stop ∧ isBoundary source stop = true

theorem behind_of_parts {source front taken after : List Char} (whole : source = front ++ (taken ++ after))
    (present : taken ≠ []) : Behind source (byteLength front) (byteLength front + byteLength taken) := by
  refine ⟨Nat.lt_add_of_pos_right (Text.byteLength_pos present),
    isBoundary_iff.mpr ⟨front ++ taken, after, ?_, byteLength_append front taken⟩⟩
  rw [whole, List.append_assoc]

theorem Walk.Reached.advance_behind {source : List Char} {walk : Walk} (reached : Reached source walk) :
    isBoundary source walk.pos = true ∧ (walk.pos < byteLength source →
      ∃ next, walk.advance? source = some next ∧ Behind source walk.pos next.pos) := by
  obtain ⟨front, rest, rfl, sound⟩ := reached.sound
  refine ⟨isBoundary_iff.mpr ⟨front, rest, rfl, sound.pos.symm⟩, fun room => ?_⟩
  cases rest with
  | nil =>
      rw [sound.pos, List.append_nil] at room
      exact absurd room (Nat.lt_irrefl _)
  | cons character rest =>
      obtain ⟨taken, after, next, whole, present, result, later⟩ := sound.advance
      refine ⟨next, result, ?_⟩
      rw [sound.pos, later.pos, byteLength_append]
      exact behind_of_parts (by rw [whole]) present

theorem scanners_behind {source : List Char} {start : Nat} (boundary : isBoundary source start = true)
    (room : start < byteLength source) :
    (∃ stop, stringEnd? (utf8 source) start = some stop ∧ Behind source start stop) ∧
      ∃ stop, wordEnd? (utf8 source) start = some stop ∧ Behind source start stop := by
  obtain ⟨front, rest, rfl, rfl⟩ := isBoundary_iff.mp boundary
  cases rest with
  | nil =>
      rw [List.append_nil] at room
      exact absurd room (Nat.lt_irrefl _)
  | cons character rest =>
      have stands := Stands.ofText front (character :: rest)
      obtain ⟨string, behindString, wholeString, somewhere, stringStop⟩ := exists_stringEnd? stands
      obtain ⟨word, behindWord, wholeWord, something, wordStop⟩ := exists_wordEnd? stands
      exact ⟨⟨_, stringStop, behind_of_parts (by rw [wholeString]) somewhere⟩,
        ⟨_, wordStop, behind_of_parts (by rw [wholeWord]) something⟩⟩

/-- Read byte by byte, every text comes to its end and has its normal form. No round fails or stays where it is, no
scanner ends inside a character, and no line or body is cut out of range, whatever the text. -/
theorem normalize_bytewise (text : String) :
    (∃ last, Walk.run? text.toList .start = some last ∧ last.pos = byteLength text.toList ∧
      String.ofList last.out = normalize text) ∧
    (∀ walk, Walk.Reached text.toList walk → isBoundary text.toList walk.pos = true ∧
      (walk.pos < byteLength text.toList →
        ∃ next, walk.advance? text.toList = some next ∧ Behind text.toList walk.pos next.pos)) ∧
    (∀ start, isBoundary text.toList start = true → start < byteLength text.toList →
      (∃ stop, stringEnd? (textBytes text) start = some stop ∧ Behind text.toList start stop) ∧
        ∃ stop, wordEnd? (textBytes text) start = some stop ∧ Behind text.toList start stop) ∧
    splitLines? text.toList = some (BlockString.lines text.toList) ∧
    value? text.toList = some (BlockString.value text.toList) ∧
    reprint? text.toList = some (BlockString.reprint text.toList) := by
  obtain ⟨last, finished, sound⟩ := (Walk.Sound.start text.toList).run
  rw [Text.textBytes_eq_utf8]
  refine ⟨⟨last, finished, sound.pos, ?_⟩, fun walk reached => reached.advance_behind,
    fun start => scanners_behind, splitLines?_eq _, value?_eq _, reprint?_eq _⟩
  have written := sound.written
  rw [List.append_nil, tokensFrom, printAfter, List.append_nil] at written
  rw [written, normalize]
  rfl

/-- In a string that is not closed, a backslash stands before a character of two bytes. -/
theorem normalize_bytewise_unclosed :
    (∃ next, Walk.start.advance? "\x22\\é".toList = some next ∧ Behind "\x22\\é".toList 0 next.pos) ∧
      ∃ stop, stringEnd? (textBytes "\x22\\é") 0 = some stop ∧ Behind "\x22\\é".toList 0 stop := by
  have safe := normalize_bytewise "\x22\\é"
  exact ⟨(safe.2.1 _ .start).2 (by decide), (safe.2.2.1 0 (by decide) (by decide)).1⟩

end TypedLiterals.Graphql.Bytewise
