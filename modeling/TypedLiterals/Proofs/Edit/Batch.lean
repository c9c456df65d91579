import TypedLiterals.Proofs.Edit

/-!
Batches of edits.

A batch can be made exactly when each of its edits lies in the text and no two of them overlap. It then comes to
the same as making its edits one at a time from the last position to the first, so the order of the batch counts
only among edits of one stretch.
-/

namespace TypedLiterals

open Text (byteLength)

/-! ## Stretches of a text -/

namespace Span

/-- Whether a span lies in a text and cuts no character. -/
structure Within (span : Span) (text : List Char) : Prop where
  ordered : span.start ≤ span.stop
  inside : span.stop ≤ byteLength text
  start : Text.isBoundary text span.start = true
  stop : Text.isBoundary text span.stop = true

/-- Whether two spans share some text, or one is a place inside the other. -/
def Overlaps (left right : Span) : Prop :=
  left.start < right.stop ∧ right.start < left.stop

variable {span left middle right place : Span} {text before covered after : List Char}

theorem Within.exists_parts (within : span.Within text) :
    ∃ before covered after, text = before ++ (covered ++ after) ∧ byteLength before = span.start ∧
      span.start + byteLength covered = span.stop := by
  obtain ⟨before, rest, whole, start⟩ := Text.isBoundary_iff.mp within.start
  obtain ⟨front, after, same, stop⟩ := Text.isBoundary_iff.mp within.stop
  have ordered := within.ordered
  obtain ⟨covered, rfl, rfl⟩ := Text.exists_middle (whole.symm.trans same) (by omega)
  rw [Text.byteLength_append] at stop
  exact ⟨before, covered, after, whole, start, by omega⟩

theorem within_of_parts (start : byteLength before = span.start)
    (stop : span.start + byteLength covered = span.stop) : span.Within (before ++ (covered ++ after)) where
  ordered := by omega
  inside := by
    rw [Text.byteLength_append, Text.byteLength_append]
    omega
  start := Text.isBoundary_iff.mpr ⟨before, covered ++ after, rfl, start⟩
  stop := Text.isBoundary_iff.mpr ⟨before ++ covered, after, (List.append_assoc _ _ _).symm, by
    rw [Text.byteLength_append]
    omega⟩

theorem fits_iff : span.fits text = true ↔ span.Within text := by
  rw [fits, Bool.and_eq_true, Bool.and_eq_true, decide_eq_true_eq]
  constructor
  · rintro ⟨⟨ordered, start⟩, stop⟩
    obtain ⟨front, back, rfl, length⟩ := Text.isBoundary_iff.mp stop
    exact ⟨ordered, by rw [Text.byteLength_append]; omega, start, stop⟩
  · exact fun within => ⟨⟨within.ordered, within.start⟩, within.stop⟩

/-! ## Order of position -/

theorem le_iff : left.le right = true ↔
    left.start < right.start ∨ left.start = right.start ∧ left.stop ≤ right.stop := by
  simp [le]

theorem le_refl (span : Span) : span.le span = true :=
  le_iff.mpr (.inr ⟨rfl, Nat.le_refl _⟩)

theorem le_of_not_le (above : ¬ left.le right = true) : right.le left = true := by
  rw [le_iff] at above ⊢
  omega

theorem le_trans (first : left.le middle = true) (second : middle.le right = true) : left.le right = true := by
  rw [le_iff] at *
  omega

theorem le_antisymm (first : left.le right = true) (second : right.le left = true) : left = right := by
  obtain ⟨leftStart, leftStop⟩ := left
  obtain ⟨rightStart, rightStop⟩ := right
  rw [le_iff] at first second
  dsimp only at first second
  rw [Span.mk.injEq]
  omega

variable {α : Type} {key : α → Span} {element : α} {elements others : List α}

theorem pairwise_insertBy (ordered : elements.Pairwise fun first second => (key first).le (key second) = true) :
    (insertBy key element elements).Pairwise fun first second => (key first).le (key second) = true := by
  induction elements with
  | nil => exact List.pairwise_singleton _ _
  | cons next rest ih =>
      obtain ⟨first, later⟩ := List.pairwise_cons.mp ordered
      rw [insertBy]
      split
      · next below =>
        refine .cons (fun other member => ?_) ordered
        rcases List.mem_cons.mp member with rfl | inside
        · exact below
        · exact le_trans below (first other inside)
      · next above =>
        refine .cons (fun other member => ?_) (ih later)
        rcases List.mem_cons.mp ((insertBy_perm element).subset member) with rfl | inside
        · exact le_of_not_le above
        · exact first other inside

variable (key elements) in
theorem pairwise_sortBy :
    (sortBy key elements).Pairwise fun first second => (key first).le (key second) = true := by
  induction elements with
  | nil => exact .nil
  | cons element rest ih => exact pairwise_insertBy ih

theorem filter_insertBy (place : Span) :
    (insertBy key element elements).filter (key · = place) = (element :: elements).filter (key · = place) := by
  induction elements with
  | nil => rfl
  | cons next rest ih =>
      rw [insertBy]
      split
      · rfl
      · next above =>
        rw [List.filter_cons, ih]
        by_cases here : key element = place
        · have other : key next ≠ place := fun same => above (here ▸ same ▸ le_refl _)
          simp [here, other]
        · simp [here, List.filter_cons]

variable (key elements) in
theorem filter_sortBy (place : Span) :
    (sortBy key elements).filter (key · = place) = elements.filter (key · = place) := by
  induction elements with
  | nil => rfl
  | cons element rest ih =>
      refine (filter_insertBy place).trans ?_
      rw [List.filter_cons, List.filter_cons, ← ih]
      rfl

/-- There is one way to put elements in order of position when those of each span have an order. -/
theorem eq_of_ordered (ordered : elements.Pairwise fun first second => (key first).le (key second) = true)
    (also : others.Pairwise fun first second => (key first).le (key second) = true)
    (same : ∀ place, elements.filter (key · = place) = others.filter (key · = place)) : elements = others := by
  induction elements generalizing others with
  | nil =>
      refine (List.eq_nil_iff_forall_not_mem.mpr fun other member => ?_).symm
      have listed : other ∈ others.filter (key · = key other) := List.mem_filter.mpr ⟨member, by simp⟩
      rw [← same] at listed
      cases listed
  | cons first rest ih =>
      obtain ⟨below, orderedRest⟩ := List.pairwise_cons.mp ordered
      have listed : first ∈ others := by
        have inside : first ∈ (first :: rest).filter (key · = key first) :=
          List.mem_filter.mpr ⟨List.mem_cons_self, by simp⟩
        rw [same] at inside
        exact (List.mem_filter.mp inside).1
      cases others with
      | nil => cases listed
      | cons other later =>
          obtain ⟨belowOther, alsoLater⟩ := List.pairwise_cons.mp also
          have otherListed : other ∈ first :: rest := by
            have inside : other ∈ (other :: later).filter (key · = key other) :=
              List.mem_filter.mpr ⟨List.mem_cons_self, by simp⟩
            rw [← same] at inside
            exact (List.mem_filter.mp inside).1
          have spans : key first = key other := by
            rcases List.mem_cons.mp listed with rfl | inside
            · rfl
            · rcases List.mem_cons.mp otherListed with rfl | alsoInside
              · rfl
              · exact le_antisymm (below other alsoInside) (belowOther first inside)
          have heads := same (key first)
          rw [List.filter_cons_of_pos (by simp), List.filter_cons_of_pos (by simp [spans]),
            List.cons.injEq] at heads
          obtain ⟨rfl, rests⟩ := heads
          refine congrArg (first :: ·) (ih orderedRest alsoLater fun place => ?_)
          by_cases here : key first = place
          · rw [← here, rests]
          · have rests := same place
            rwa [List.filter_cons_of_neg (by simpa using here), List.filter_cons_of_neg (by simpa using here)]
              at rests

end Span

namespace Edit

variable {cursor : Nat} {text ahead rest written : List Char} {previous first second : Span} {edit : Edit}
  {edits later batch other : List Edit}

/-! ## Making edits in order -/

theorem Writes.applyFrom (writes : Writes cursor rest edits written) (previous : Span)
    (place : byteLength ahead = cursor) :
    applyFrom (ahead ++ rest) cursor previous rest edits = .ok written := by
  induction writes generalizing ahead previous with
  | nil => rfl
  | @cons cursor kept covered rest written edit later start stop writes ih =>
      have before : byteLength (ahead ++ kept) = edit.span.start := by rw [Text.byteLength_append]; omega
      have whole : ahead ++ (kept ++ (covered ++ rest)) = (ahead ++ kept) ++ (covered ++ rest) := by simp
      have fits : edit.span.fits (ahead ++ (kept ++ (covered ++ rest))) = true := by
        rw [whole]
        exact Span.fits_iff.mpr (Span.within_of_parts before stop)
      have behind := @ih (ahead ++ kept ++ covered) edit.span (by rw [Text.byteLength_append]; omega)
      have keptLength : edit.span.start - cursor = byteLength kept := by omega
      have coveredLength : edit.span.stop - edit.span.start = byteLength covered := by omega
      rw [Edit.applyFrom, fits, if_neg (by simp), if_neg (by omega), keptLength, Text.splitAtByte?_append]
      dsimp only
      rw [coveredLength, Text.splitAtByte?_append]
      simp only [List.append_assoc, Text.characters_eq] at behind ⊢
      rw [behind]
      rfl

theorem applyAll_eq_ok_iff {text result : String} :
    applyAll text batch = .ok result ↔ Writes 0 text.toList (Span.sortBy span batch) result.toList := by
  refine ⟨writes_of_applyAll, fun writes => ?_⟩
  have applied := @Writes.applyFrom _ [] _ _ _ writes ⟨0, 0⟩ rfl
  rw [List.nil_append] at applied
  rw [applyAll, Text.characters_eq, applied, Except.map, String.ofList_toList]

theorem Writes.within (writes : Writes cursor rest edits written) (place : byteLength ahead = cursor) :
    ∀ edit ∈ edits, edit.span.Within (ahead ++ rest) := by
  induction writes generalizing ahead with
  | nil => exact nofun
  | @cons cursor kept covered rest written edit later start stop writes ih =>
      have before : byteLength (ahead ++ kept) = edit.span.start := by rw [Text.byteLength_append]; omega
      have behind := @ih (ahead ++ kept ++ covered) (by rw [Text.byteLength_append]; omega)
      have whole : ahead ++ (kept ++ (covered ++ rest)) = (ahead ++ kept) ++ (covered ++ rest) := by simp
      rw [whole]
      refine List.forall_mem_cons.mpr ⟨Span.within_of_parts before stop, ?_⟩
      rwa [List.append_assoc] at behind

theorem Writes.apart (writes : Writes cursor rest edits written) :
    edits.Pairwise fun first second => first.span.stop ≤ second.span.start := by
  induction writes with
  | nil => exact .nil
  | cons _ _ writes ih => exact .cons (fun other member => writes.le_start member) ih

/-- Edits in order can be made when each begins behind the one before. -/
theorem exists_writes (within : ∀ edit ∈ edits, edit.span.Within (ahead ++ rest))
    (apart : edits.Pairwise fun first second => first.span.stop ≤ second.span.start)
    (place : byteLength ahead = cursor) (behind : ∀ edit ∈ edits, cursor ≤ edit.span.start) :
    ∃ written, Writes cursor rest edits written := by
  induction edits generalizing cursor ahead rest with
  | nil => exact ⟨rest, .nil⟩
  | cons edit later ih =>
      obtain ⟨here, within⟩ := List.forall_mem_cons.mp within
      obtain ⟨follow, apart⟩ := List.pairwise_cons.mp apart
      have start := behind edit List.mem_cons_self
      obtain ⟨before, covered, after, whole, length, stop⟩ := here.exists_parts
      obtain ⟨kept, rfl, rfl⟩ := Text.exists_middle whole (by omega)
      rw [Text.byteLength_append] at length
      have parts : ahead ++ (kept ++ (covered ++ after)) = (ahead ++ kept ++ covered) ++ after := by simp
      rw [parts] at within
      obtain ⟨written, writes⟩ := ih within apart
        (by rw [Text.byteLength_append, Text.byteLength_append]; omega) follow
      exact ⟨_, .cons (by omega) stop writes⟩

/-! ## When a batch can be made -/

theorem pairwise_overlaps_perm (same : edits.Perm other) :
    (edits.Pairwise fun first second => ¬ first.span.Overlaps second.span) ↔
      other.Pairwise fun first second => ¬ first.span.Overlaps second.span :=
  same.pairwise_iff fun apart overlaps => apart ⟨overlaps.2, overlaps.1⟩

/-- Of edits in order of position two that do not overlap follow each other. -/
theorem pairwise_overlaps_iff (ordered : edits.Pairwise fun first second => first.span.le second.span = true)
    (within : ∀ edit ∈ edits, edit.span.Within text) :
    (edits.Pairwise fun first second => ¬ first.span.Overlaps second.span) ↔
      edits.Pairwise fun first second => first.span.stop ≤ second.span.start := by
  induction edits with
  | nil => exact ⟨fun _ => .nil, fun _ => .nil⟩
  | cons edit later ih =>
      obtain ⟨here, within⟩ := List.forall_mem_cons.mp within
      obtain ⟨below, ordered⟩ := List.pairwise_cons.mp ordered
      rw [List.pairwise_cons, List.pairwise_cons, ih ordered within]
      refine and_congr_left fun _ => forall₂_congr fun other member => ?_
      have le := Span.le_iff.mp (below other member)
      have first := here.ordered
      have second := (within other member).ordered
      unfold Span.Overlaps
      omega

/-- A batch can be made when all its edits lie in the text and no two overlap. -/
theorem exists_applyAll_iff {text : String} :
    (∃ result, applyAll text batch = .ok result) ↔ (∀ edit ∈ batch, edit.span.Within text.toList) ∧
      batch.Pairwise fun first second => ¬ first.span.Overlaps second.span := by
  have same : (Span.sortBy span batch).Perm batch := Span.sortBy_perm span
  have ordered := Span.pairwise_sortBy span batch
  constructor
  · rintro ⟨result, applied⟩
    have writes := applyAll_eq_ok_iff.mp applied
    have within := @Writes.within _ [] _ _ _ writes rfl
    refine ⟨fun edit member => within edit (same.symm.subset member), ?_⟩
    exact (pairwise_overlaps_perm same).mp ((pairwise_overlaps_iff ordered within).mpr writes.apart)
  · rintro ⟨within, apart⟩
    have within := fun edit member => within edit (same.subset member)
    obtain ⟨written, writes⟩ := @exists_writes 0 [] _ _ within
      ((pairwise_overlaps_iff ordered within).mp ((pairwise_overlaps_perm same).mpr apart)) rfl
      fun _ _ => Nat.zero_le _
    refine ⟨String.ofList written, applyAll_eq_ok_iff.mpr ?_⟩
    rwa [String.toList_ofList]

/-! ## Edits that overlap -/

/-- The edit that is refused overlaps the one before it, which is the last one made. -/
theorem exists_of_overlapping
    (refused : applyFrom text cursor previous rest edits = .error (.overlapping first second)) :
    ∃ front edit later, edits = front ++ edit :: later ∧ edit.span = second ∧ edit.span.Within text ∧
      ((front = [] ∧ previous = first ∧ second.start < cursor) ∨
        ∃ before made, front = before ++ [made] ∧ made.span = first ∧ second.start < first.stop) := by
  induction edits generalizing cursor previous rest with
  | nil => cases refused
  | cons edit later ih =>
      rw [applyFrom] at refused
      split at refused
      · cases refused
      next inside =>
      split at refused
      · next behind =>
        cases refused
        refine ⟨[], edit, later, rfl, rfl, Span.fits_iff.mp (by simpa using inside), .inl ⟨rfl, rfl, behind⟩⟩
      split at refused
      · cases refused
      split at refused
      · cases refused
      next after _ =>
      cases next : applyFrom text edit.span.stop edit.span after later with
      | ok written =>
          rw [next] at refused
          cases refused
      | error cause =>
          rw [next] at refused
          cases refused
          obtain ⟨front, refusedEdit, others, rfl, same, within, start | ⟨before, made, rfl, named, start⟩⟩ :=
            ih next
          · obtain ⟨rfl, rfl, start⟩ := start
            exact ⟨[edit], refusedEdit, others, rfl, same, within, .inr ⟨[], edit, rfl, rfl, start⟩⟩
          · exact ⟨edit :: (before ++ [made]), refusedEdit, others, rfl, same, within,
              .inr ⟨edit :: before, made, rfl, named, start⟩⟩

/-- The two stretches that are reported to overlap are those of two edits of the batch, and do. -/
theorem overlaps_of_applyAll {text : String} (refused : applyAll text batch = .error (.overlapping first second)) :
    ∃ made edit others, batch.Perm (made :: edit :: others) ∧ made.span = first ∧ edit.span = second ∧
      first.Overlaps second := by
  have same : (Span.sortBy span batch).Perm batch := Span.sortBy_perm span
  have ordered := Span.pairwise_sortBy span batch
  rw [applyAll, Text.characters_eq] at refused
  cases failed : applyFrom text.toList 0 ⟨0, 0⟩ text.toList (Span.sortBy span batch) with
  | ok written =>
      rw [failed] at refused
      cases refused
  | error cause =>
      rw [failed] at refused
      cases refused
      obtain ⟨front, edit, later, split, rfl, within, ⟨_, _, start⟩ | ⟨before, made, rfl, rfl, start⟩⟩ :=
        exists_of_overlapping failed
      · exact absurd start (Nat.not_lt_zero _)
      · rw [split] at same ordered
        refine ⟨made, edit, before ++ later, ?_, rfl, rfl, ?_, start⟩
        · refine same.symm.trans ?_
          rw [List.append_assoc]
          exact List.perm_middle.trans (List.perm_middle.cons made)
        · have le := Span.le_iff.mp ((List.pairwise_append.mp ordered).2.2 made (by simp) edit (by simp))
          have bounds := within.ordered
          omega

/-! ## One edit at a time -/

/-- The text with one edit made, if the edit lies in it. -/
def make? (edit : Edit) (text : List Char) : Option (List Char) :=
  if edit.span.start ≤ edit.span.stop then
    match Text.splitAtByte? edit.span.start text, Text.splitAtByte? edit.span.stop text with
    | some (before, _), some (_, after) => some (before ++ edit.replacement.toList ++ after)
    | _, _ => none
  else none

/-- The text with edits made one at a time, the last of them first. -/
def makeEach? (edits : List Edit) (text : List Char) : Option (List Char) :=
  edits.foldr (fun edit made => made.bind edit.make?) (some text)

/-- Whether edits are those of a batch, those of each stretch in the order of the batch. -/
structure Rearranges (edits batch : List Edit) : Prop where
  perm : edits.Perm batch
  keeps : ∀ place, edits.filter (·.span = place) = batch.filter (·.span = place)

/-- Whether edits are those of a batch in order of position, those of each stretch in the order of the batch. -/
structure Arranges (edits batch : List Edit) : Prop extends Rearranges edits batch where
  ordered : edits.Pairwise fun first second => first.span.le second.span = true

theorem arranges_sortBy (batch : List Edit) : Arranges (Span.sortBy span batch) batch where
  perm := Span.sortBy_perm span
  keeps := Span.filter_sortBy span batch
  ordered := Span.pairwise_sortBy span batch

theorem Arranges.eq_sortBy (arranges : Arranges edits batch) : edits = Span.sortBy span batch :=
  Span.eq_of_ordered arranges.ordered (arranges_sortBy batch).ordered fun place =>
    (arranges.keeps place).trans ((arranges_sortBy batch).keeps place).symm

theorem Rearranges.applyAll (rearranges : Rearranges other batch) (text : String) :
    applyAll text other = applyAll text batch := by
  have same : Span.sortBy span other = Span.sortBy span batch := Arranges.eq_sortBy
    ⟨⟨(Span.sortBy_perm span).trans rearranges.perm, fun place =>
      (Span.filter_sortBy span other place).trans (rearranges.keeps place)⟩, Span.pairwise_sortBy span other⟩
  rw [Edit.applyAll, Edit.applyAll, same]

theorem make?_parts {before covered after : List Char} (start : byteLength before = edit.span.start)
    (stop : edit.span.start + byteLength covered = edit.span.stop) :
    edit.make? (before ++ (covered ++ after)) = some (before ++ edit.replacement.toList ++ after) := by
  have stopLength : byteLength (before ++ covered) = edit.span.stop := by rw [Text.byteLength_append]; omega
  rw [make?, if_pos (by omega), ← start, Text.splitAtByte?_append, ← stopLength, ← List.append_assoc,
    Text.splitAtByte?_append]

/-- Edits in order leave what they do when they are made one at a time from the last to the first: none moves
the stretch of an earlier one. -/
theorem Writes.makeEach? (writes : Writes cursor rest edits written) (place : byteLength ahead = cursor) :
    makeEach? edits (ahead ++ rest) = some (ahead ++ written) := by
  induction writes generalizing ahead with
  | nil => rfl
  | @cons cursor kept covered rest written edit later start stop writes ih =>
      have before : byteLength (ahead ++ kept) = edit.span.start := by rw [Text.byteLength_append]; omega
      have behind := @ih (ahead ++ kept ++ covered) (by rw [Text.byteLength_append]; omega)
      have made := @make?_parts edit (ahead ++ kept) covered written before stop
      unfold Edit.makeEach? at behind ⊢
      simp only [List.append_assoc] at behind made ⊢
      rw [List.foldr_cons, behind, Option.bind_some, made]

end Edit

/-- A batch of edits is made exactly when all lie in the text and no two overlap. The text is then that of making
them one at a time from the last position to the first, whatever the order of those for different stretches. Two
stretches that are reported to overlap are those of two edits, and do. -/
theorem applyAll_one_at_a_time (text : String) (batch : List Edit) :
    ((∃ result, Edit.applyAll text batch = .ok result) ↔ (∀ edit ∈ batch, edit.span.Within text.toList) ∧
      batch.Pairwise fun first second => ¬ first.span.Overlaps second.span) ∧
    (∀ result, Edit.applyAll text batch = .ok result → (∃ edits, Edit.Arranges edits batch) ∧
      ∀ edits, Edit.Arranges edits batch → Edit.makeEach? edits text.toList = some result.toList) ∧
    (∀ other, Edit.Rearranges other batch → Edit.applyAll text other = Edit.applyAll text batch) ∧
    ∀ first second, Edit.applyAll text batch = .error (.overlapping first second) →
      ∃ made edit others, batch.Perm (made :: edit :: others) ∧ made.span = first ∧ edit.span = second ∧
        first.Overlaps second := by
  refine ⟨Edit.exists_applyAll_iff,
    fun result applied => ⟨⟨_, Edit.arranges_sortBy batch⟩, fun edits arranges => ?_⟩,
    fun other rearranges => rearranges.applyAll text, fun first second refused => Edit.overlaps_of_applyAll refused⟩
  have writes := Edit.applyAll_eq_ok_iff.mp applied
  rw [← arranges.eq_sortBy] at writes
  exact @Edit.Writes.makeEach? _ [] _ _ _ writes rfl

end TypedLiterals
