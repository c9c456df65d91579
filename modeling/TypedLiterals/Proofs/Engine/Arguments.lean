import TypedLiterals.Proofs.Engine.Replacement

/-!
Placeholders of the engine's arguments, filled one after another and all at once.

An argument is cut once at its placeholders, and each is filled by its value. Filling them one after another
gives the same text as long as no value that is already in place completes a further placeholder, alone or with
what stands beside it. Paths without braces never do.
-/

namespace TypedLiterals.Request

/-- The placeholders that an argument may have. -/
inductive Placeholder where
  | schema
  | module
  | declaration
  | source
deriving DecidableEq, Repr

namespace Placeholder

def name : Placeholder → String
  | schema => "schema"
  | module => "module"
  | declaration => "declaration"
  | source => "source"

def text (hole : Placeholder) : List Char :=
  placeholder hole.name

/-- The placeholders in the order in which they are filled. -/
def all : List Placeholder :=
  [schema, module, declaration, source]

/-- The placeholders that are filled before one. -/
def before (hole : Placeholder) : List Placeholder :=
  all.takeWhile (· ≠ hole)

end Placeholder

/-- A piece of an argument. -/
inductive Part where
  | kept (character : Char)
  | hole (placeholder : Placeholder)
deriving DecidableEq, Repr

/-- A text cut once at the placeholders in it. The first `skip` characters belong to a placeholder. -/
def partsFrom : (skip : Nat) → List Char → List Part
  | _, [] => []
  | skip + 1, _ :: rest => partsFrom skip rest
  | 0, character :: rest =>
    match Placeholder.all.find? fun hole => hole.text.isPrefixOf (character :: rest) with
    | some hole => .hole hole :: partsFrom (hole.text.length - 1) rest
    | none => .kept character :: partsFrom 0 rest

def parts (text : List Char) : List Part :=
  partsFrom 0 text

/-- The pieces of an argument with something put in each hole. -/
def assemble (put : Placeholder → List Char) (pieces : List Part) : List Char :=
  pieces.flatMap fun
    | .kept character => [character]
    | .hole hole => put hole

/-- What a placeholder stands for. -/
def valueOf (request : Request) : Placeholder → List Char
  | .schema => request.schemaText
  | .module => request.module.text.toList
  | .declaration => request.declaration.text.toList
  | .source => request.source.toList

/-- An argument with all its placeholders replaced at once. -/
def substitute (request : Request) (arg : String) : String :=
  String.ofList (assemble request.valueOf (parts arg.toList))

/-- What stands in the holes when only some placeholders are replaced by their values. -/
def filling (request : Request) (done : List Placeholder) (hole : Placeholder) : List Char :=
  if hole ∈ done then request.valueOf hole else hole.text

/-- An argument in which only some placeholders are replaced by their values. -/
def partlyFilled (request : Request) (done : List Placeholder) (arg : List Char) : List Char :=
  assemble (request.filling done) (parts arg)

/-- The values that are already in place make no further placeholder of this kind, or replacing it changes
nothing. -/
def Undisturbed (request : Request) (arg : List Char) (done : List Placeholder) (hole : Placeholder) : Prop :=
  occurrences hole.text (request.partlyFilled done arg) = occurrences hole.text arg ∨
    request.valueOf hole = hole.text

/-- The pieces of a text: placeholders, and characters at which none begins. -/
inductive Parted : List Char → List Part → Prop
  | nil : Parted [] []
  | hole (hole : Placeholder) : Parted rest pieces → Parted (hole.text ++ rest) (.hole hole :: pieces)
  | kept : (∀ hole : Placeholder, ¬ hole.text <+: character :: rest) → Parted rest pieces →
    Parted (character :: rest) (.kept character :: pieces)

variable {request : Request} {text rest front arg : List Char} {character : Char} {pieces : List Part}
  {hole : Placeholder} {done todo : List Placeholder} {put : Placeholder → List Char}

theorem Placeholder.braced (hole : Placeholder) : Braced hole.text :=
  ⟨hole.name.toList, rfl, by cases hole <;> decide, by cases hole <;> decide⟩

theorem Placeholder.text_injective : Function.Injective Placeholder.text := by
  intro left right same
  cases left <;> cases right <;> first | rfl | exact absurd same (by decide)

theorem Placeholder.mem_all (hole : Placeholder) : hole ∈ Placeholder.all := by
  cases hole <;> decide

/-! ## Cutting an argument -/

theorem partsFrom_eq (skip : Nat) (text : List Char) : partsFrom skip text = parts (text.drop skip) := by
  induction text generalizing skip with
  | nil => cases skip <;> rfl
  | cons character rest ih =>
      cases skip with
      | zero => rfl
      | succ skip => rw [partsFrom, ih, List.drop_succ_cons]

theorem parted_parts (text : List Char) : Parted text (parts text) := by
  induction size : text.length using Nat.strongRecOn generalizing text with
  | ind length ih =>
      cases text with
      | nil => exact .nil
      | cons character rest =>
          rw [parts, partsFrom]
          split
          · next hole found =>
              have begins : hole.text <+: character :: rest := by simpa using List.find?_some found
              obtain ⟨behind, same⟩ := begins
              obtain ⟨tail, split, _, _⟩ := hole.braced.exists_cons
              have later : partsFrom (hole.text.length - 1) rest = parts behind := by
                rw [split, List.cons_append, List.cons.injEq] at same
                rw [partsFrom_eq, split, ← same.2]
                simp
              have shorter : behind.length < length := by
                rw [← size, ← same, split, List.length_append, List.length_cons]
                omega
              rw [later, ← same]
              exact .hole hole (ih _ shorter behind rfl)
          · next missing =>
              have apart (hole : Placeholder) : ¬ hole.text <+: character :: rest := by
                simpa using List.find?_eq_none.mp missing hole hole.mem_all
              rw [partsFrom_eq]
              exact .kept apart (ih _ (by simp [← size]) rest rfl)

@[simp] theorem assemble_nil : assemble put [] = [] := rfl

@[simp] theorem assemble_kept (character : Char) (pieces : List Part) :
    assemble put (.kept character :: pieces) = character :: assemble put pieces :=
  rfl

@[simp] theorem assemble_hole (hole : Placeholder) (pieces : List Part) :
    assemble put (.hole hole :: pieces) = put hole ++ assemble put pieces :=
  rfl

theorem Parted.assemble_text (parted : Parted text pieces) : assemble Placeholder.text pieces = text := by
  induction parted with
  | nil => rfl
  | hole hole _ ih => rw [assemble_hole, ih]
  | kept _ _ ih => rw [assemble_kept, ih]

theorem Parted.count_hole (parted : Parted text pieces) (hole : Placeholder) :
    pieces.count (.hole hole) = occurrences hole.text text := by
  induction parted with
  | nil => rfl
  | hole other _ ih =>
      rw [hole.braced.occurrences_append_braced other.braced, List.count_cons, ih]
      by_cases same : other = hole
      · simp [same]
      · simp [same, Placeholder.text_injective.ne (Ne.symm same)]
  | kept apart _ ih => simp [ih, apart]

/-! ## One pass -/

/-- The characters of an argument in which one kind of placeholder is still to be filled. -/
def marks (put : Placeholder → List Char) (hole : Placeholder) (pieces : List Part) : List (Option Char) :=
  pieces.flatMap fun
    | .kept character => [some character]
    | .hole other => if other = hole then [none] else (put other).map some

theorem spell_append (value : List Char) (left right : List (Option Char)) :
    spell value (left ++ right) = spell value left ++ spell value right := by
  simp [spell]

theorem spell_map_some (value text : List Char) : spell value (text.map some) = text := by
  simp [spell, List.flatMap_map]

theorem spell_marks (put : Placeholder → List Char) (hole : Placeholder) (value : List Char)
    (pieces : List Part) : spell value (marks put hole pieces) =
      assemble (fun other => if other = hole then value else put other) pieces := by
  induction pieces with
  | nil => rfl
  | cons piece pieces ih =>
      rw [marks] at ih
      cases piece with
      | kept character => simp [marks, ih]
      | hole other =>
          by_cases same : other = hole
          · simp [marks, ih, same]
          · simp [marks, ih, same, spell_append, spell_map_some]

theorem count_marks (put : Placeholder → List Char) (hole : Placeholder) (pieces : List Part) :
    (marks put hole pieces).count none = pieces.count (.hole hole) := by
  induction pieces with
  | nil => rfl
  | cons piece pieces ih =>
      rw [marks] at ih
      cases piece with
      | kept character => simp [marks, ih]
      | hole other =>
          by_cases same : other = hole
          · simp [marks, ih, same]
          · simp [marks, ih, same, List.count_eq_zero]

/-- Before and after one kind of placeholder is filled an argument has the same characters around the same
holes. -/
theorem exists_marked (request : Request) (fresh : hole ∉ done) (arg : List Char) : ∃ marked,
    request.partlyFilled done arg = spell hole.text marked ∧
    request.partlyFilled (done ++ [hole]) arg = spell (request.valueOf hole) marked ∧
    marked.count none = occurrences hole.text arg := by
  refine ⟨marks (request.filling done) hole (parts arg), ?_, ?_, ?_⟩
  · rw [spell_marks, partlyFilled]
    congr 1
    funext other
    by_cases same : other = hole
    · simp [filling, same, fresh]
    · simp [same]
  · rw [spell_marks, partlyFilled]
    congr 1
    funext other
    by_cases same : other = hole
    · simp [filling, same]
    · simp [filling, same]
  · rw [count_marks, (parted_parts arg).count_hole]

theorem partlyFilled_nil (request : Request) (arg : List Char) : request.partlyFilled [] arg = arg := by
  have empty : request.filling [] = Placeholder.text := by
    funext hole
    simp [filling]
  rw [partlyFilled, empty, (parted_parts arg).assemble_text]

/-- A pass fills the placeholders of the argument only, if and only if the values before leave them alone. -/
theorem replace_partlyFilled_iff (request : Request) (fresh : hole ∉ done) (arg : List Char) :
    replace hole.text (request.valueOf hole) (request.partlyFilled done arg) =
        request.partlyFilled (done ++ [hole]) arg ↔ request.Undisturbed arg done hole := by
  obtain ⟨marked, before, after, count⟩ := exists_marked request fresh arg
  rw [Undisturbed, before, after, replace_spell_iff hole.braced, count]

theorem occurrences_le_partlyFilled (request : Request) (fresh : hole ∉ done) (arg : List Char) :
    occurrences hole.text arg ≤ occurrences hole.text (request.partlyFilled done arg) := by
  obtain ⟨marked, before, _, count⟩ := exists_marked request fresh arg
  rw [before, ← count]
  exact count_le_occurrences hole.braced marked

/-! ## All passes -/

/-- A text in which some placeholders are replaced one after another. -/
def replaceEach (request : Request) (todo : List Placeholder) (text : List Char) : List Char :=
  todo.foldl (fun text hole => replace hole.text (request.valueOf hole) text) text

theorem replaceEach_cons (request : Request) (hole : Placeholder) (todo : List Placeholder) (text : List Char) :
    request.replaceEach (hole :: todo) text =
      request.replaceEach todo (replace hole.text (request.valueOf hole) text) :=
  rfl

theorem fill_eq (request : Request) (arg : String) :
    request.fill arg = String.ofList (request.replaceEach Placeholder.all arg.toList) :=
  rfl

theorem substitute_eq (request : Request) (arg : String) :
    request.substitute arg = String.ofList (request.partlyFilled Placeholder.all arg.toList) := by
  have full : request.filling Placeholder.all = request.valueOf := by
    funext hole
    simp [filling, hole.mem_all]
  rw [partlyFilled, full, substitute]

/-- The number of slashes in a text. -/
def slashes (text : List Char) : Nat :=
  text.countP (· = '/')

theorem slashes_placeholder (hole : Placeholder) : slashes hole.text = 0 := by
  cases hole <;> decide

theorem slashes_replace (hole : Placeholder) (value text : List Char) :
    slashes (replace hole.text value text) = slashes text + occurrences hole.text text * slashes value := by
  have counted := countP_replace hole.braced (· = '/') value text
  have none := slashes_placeholder hole
  simp only [slashes] at none ⊢
  simpa [none] using counted

theorem slashes_partlyFilled (request : Request) (fresh : hole ∉ done) (arg : List Char) :
    slashes (request.partlyFilled (done ++ [hole]) arg) =
      slashes (request.partlyFilled done arg) + occurrences hole.text arg * slashes (request.valueOf hole) := by
  obtain ⟨marked, before, after, count⟩ := exists_marked request fresh arg
  have counted := countP_spell (· = '/') hole.text (request.valueOf hole) marked
  have none := slashes_placeholder hole
  rw [before, after, ← count]
  simp only [slashes] at none ⊢
  simpa [none] using counted

theorem fresh_of_nodup (nodup : (done ++ hole :: todo).Nodup) : hole ∉ done ∧ hole ∉ todo := by
  obtain ⟨_, later, apart⟩ := List.nodup_append.mp nodup
  exact ⟨fun member => apart hole member hole List.mem_cons_self rfl, (List.nodup_cons.mp later).1⟩

theorem enough_replace (request : Request) (fresh : hole ∉ todo)
    (enough : ∀ other ∈ todo, occurrences other.text arg ≤ occurrences other.text text) :
    ∀ other ∈ todo, occurrences other.text arg ≤
      occurrences other.text (replace hole.text (request.valueOf hole) text) := by
  intro other member
  have apart : other ≠ hole := by
    rintro rfl
    exact fresh member
  exact Nat.le_trans (enough other member)
    (occurrences_le_replace hole.braced other.braced (Placeholder.text_injective.ne apart) _ text)

/-- Passes never put in fewer values than the argument has placeholders for. -/
theorem slashes_le_replaceEach (request : Request) (nodup : (done ++ todo).Nodup) (arg : List Char)
    (enough : ∀ hole ∈ todo, occurrences hole.text arg ≤ occurrences hole.text text) :
    slashes (request.partlyFilled (done ++ todo) arg) + slashes text ≤
      slashes (request.partlyFilled done arg) + slashes (request.replaceEach todo text) := by
  induction todo generalizing done text with
  | nil => simp [replaceEach]
  | cons hole todo ih =>
      obtain ⟨fresh, others⟩ := fresh_of_nodup nodup
      rw [List.append_cons] at nodup ⊢
      have later := ih nodup
        (enough_replace request others fun other member => enough other (List.mem_cons_of_mem _ member))
      have put := Nat.mul_le_mul_right (slashes (request.valueOf hole)) (enough hole List.mem_cons_self)
      rw [slashes_replace, slashes_partlyFilled request fresh] at later
      rw [replaceEach_cons]
      omega

/-- What a pass puts in too often shows in the number of slashes at the end. -/
theorem undisturbed_first (nodup : (done ++ hole :: todo).Nodup)
    (slashed : '/' ∈ request.valueOf hole)
    (same : request.replaceEach (hole :: todo) (request.partlyFilled done arg) =
      request.partlyFilled (done ++ hole :: todo) arg) : request.Undisturbed arg done hole := by
  obtain ⟨fresh, others⟩ := fresh_of_nodup nodup
  have notDone : ∀ other ∈ todo, other ∉ done := fun other member isDone =>
    (List.nodup_append.mp nodup).2.2 other isDone other (List.mem_cons_of_mem _ member) rfl
  have least : ∀ other ∈ todo, occurrences other.text arg ≤
      occurrences other.text (request.partlyFilled done arg) := fun other member =>
    occurrences_le_partlyFilled request (notDone other member) arg
  have enough := enough_replace request others least
  rw [List.append_cons done hole todo] at nodup same
  have counted := slashes_le_replaceEach request nodup arg enough
  rw [← replaceEach_cons, same, slashes_replace, slashes_partlyFilled request fresh] at counted
  have positive : 0 < slashes (request.valueOf hole) := by
    rw [slashes, List.countP_pos_iff]
    exact ⟨_, slashed, by simp⟩
  have most : occurrences hole.text (request.partlyFilled done arg) ≤ occurrences hole.text arg :=
    Nat.le_of_mul_le_mul_right (by omega) positive
  exact .inl (Nat.le_antisymm most (occurrences_le_partlyFilled request fresh arg))

theorem replaceEach_partlyFilled (nodup : (done ++ todo).Nodup)
    (each : ∀ front hole back, todo = front ++ hole :: back → request.Undisturbed arg (done ++ front) hole) :
    request.replaceEach todo (request.partlyFilled done arg) = request.partlyFilled (done ++ todo) arg := by
  induction todo generalizing done with
  | nil => simp [replaceEach]
  | cons hole todo ih =>
      have first : request.Undisturbed arg done hole := by simpa using each [] hole todo rfl
      have pass := (replace_partlyFilled_iff request (fresh_of_nodup nodup).1 arg).mpr first
      rw [List.append_cons done hole todo] at nodup ⊢
      rw [replaceEach_cons, pass]
      refine ih nodup fun front other back split => ?_
      rw [← List.append_cons]
      exact each (hole :: front) other back (by rw [split, List.cons_append])

/-- Passes whose values, that of the last one apart, hold a slash fill the placeholders of the argument only if
none is disturbed. -/
theorem undisturbed_of_replaceEach (nodup : (done ++ todo).Nodup)
    (slashed : ∀ hole ∈ todo.dropLast, '/' ∈ request.valueOf hole)
    (same : request.replaceEach todo (request.partlyFilled done arg) = request.partlyFilled (done ++ todo) arg)
    {front back : List Placeholder} (split : todo = front ++ hole :: back) :
    request.Undisturbed arg (done ++ front) hole := by
  induction todo generalizing done front with
  | nil => simp at split
  | cons next todo ih =>
      have pass := replace_partlyFilled_iff request (fresh_of_nodup nodup).1 arg
      have first : request.Undisturbed arg done next := by
        cases todo with
        | nil => exact pass.mp same
        | cons _ _ => exact undisturbed_first nodup (slashed next (by simp)) same
      cases front with
      | nil =>
          cases split
          simpa using first
      | cons _ front =>
          cases split
          change request.replaceEach (next :: (front ++ hole :: back)) _ = _ at same
          rw [replaceEach_cons, pass.mpr first] at same
          have slashedLater : ∀ other ∈ (front ++ hole :: back).dropLast, '/' ∈ request.valueOf other :=
            fun other member => slashed other (by
              change other ∈ (next :: (front ++ hole :: back)).dropLast
              rw [List.dropLast_cons_of_ne_nil (by simp)]
              exact List.mem_cons_of_mem _ member)
          rw [List.append_cons done next] at nodup ⊢
          exact ih nodup slashedLater (same.trans (congrArg (request.partlyFilled · arg)
            (List.append_cons done next _))) rfl

/-! ## Values without braces -/

/-- What a placeholder could have in common with the front of a value: it ends in a closing brace and has neither
an opening one nor a slash. -/
structure Tail (front : List Char) : Prop where
  unopened : '{' ∉ front
  slashless : '/' ∉ front
  closed : ∀ last ∈ front.getLast?, last = '}'

theorem Tail.of_cons (tail : Tail (character :: front)) : Tail front where
  unopened member := tail.unopened (List.mem_cons_of_mem _ member)
  slashless member := tail.slashless (List.mem_cons_of_mem _ member)
  closed last member := tail.closed last (by
    cases front with
    | nil => simp at member
    | cons next front => simpa using member)

theorem Placeholder.exists_tail (hole : Placeholder) : ∃ tail, hole.text = '{' :: tail ∧ Tail tail := by
  refine ⟨hole.name.toList ++ ['}'], rfl, ?_, ?_, by simp⟩
  · cases hole <;> decide
  · cases hole <;> decide

theorem Tail.not_prefix {value : List Char} (tail : Tail (character :: front)) (slashed : '/' ∈ value)
    (unclosed : '}' ∉ value) (rest : List Char) : ¬ character :: front <+: value ++ rest := by
  intro begins
  rcases List.prefix_or_prefix_of_prefix begins (List.prefix_append value rest) with within | beyond
  · have last := tail.closed _ (List.getLast?_eq_some_getLast (List.cons_ne_nil _ _))
    exact unclosed (within.subset (last ▸ List.getLast_mem _))
  · exact tail.slashless (beyond.subset slashed)

/-- The rest of a placeholder's text is not read on into such values. -/
theorem Tail.prefix_assemble (tail : Tail front)
    (plain : ∀ other ∈ done, '/' ∈ request.valueOf other ∧ '{' ∉ request.valueOf other ∧
      '}' ∉ request.valueOf other)
    (begins : front <+: assemble (request.filling done) pieces) :
    front <+: assemble Placeholder.text pieces := by
  induction pieces generalizing front with
  | nil => exact begins
  | cons piece pieces ih =>
      cases front with
      | nil => exact List.nil_prefix
      | cons first front =>
          cases piece with
          | kept character =>
              rw [assemble_kept, List.cons_prefix_cons] at begins ⊢
              exact ⟨begins.1, ih tail.of_cons begins.2⟩
          | hole other =>
              rw [assemble_hole] at begins
              by_cases isDone : other ∈ done
              · obtain ⟨slashed, _, unclosed⟩ := plain other isDone
                rw [filling, if_pos isDone] at begins
                exact absurd begins (tail.not_prefix slashed unclosed _)
              · obtain ⟨later, split, _⟩ := other.exists_tail
                rw [filling, if_neg isDone, split, List.cons_append, List.cons_prefix_cons] at begins
                exact absurd (List.mem_cons.mpr (.inl begins.1.symm)) tail.unopened

/-- Values that hold a slash and no brace make no placeholder. -/
theorem Parted.occurrences_assemble (parted : Parted text pieces) (fresh : hole ∉ done)
    (plain : ∀ other ∈ done, '/' ∈ request.valueOf other ∧ '{' ∉ request.valueOf other ∧
      '}' ∉ request.valueOf other) :
    occurrences hole.text (assemble (request.filling done) pieces) = occurrences hole.text text := by
  induction parted with
  | nil => rfl
  | hole other _ ih =>
      rw [assemble_hole, hole.braced.occurrences_append_braced other.braced, ← ih]
      by_cases isDone : other ∈ done
      · have apart : hole ≠ other := fun same => fresh (same ▸ isDone)
        rw [filling, if_pos isDone, hole.braced.occurrences_append (plain other isDone).2.1,
          if_neg (Placeholder.text_injective.ne apart), Nat.add_zero]
      · rw [filling, if_neg isDone, hole.braced.occurrences_append_braced other.braced]
  | @kept character rest pieces apart parted ih =>
      have still : ¬ hole.text <+: character :: assemble (request.filling done) pieces := by
        obtain ⟨later, split, tail⟩ := hole.exists_tail
        intro begins
        have front := apart hole
        rw [split, List.cons_prefix_cons] at begins front
        exact front ⟨begins.1, parted.assemble_text ▸ tail.prefix_assemble plain begins.2⟩
      rw [assemble_kept, occurrences_cons, occurrences_cons, ih, if_neg still, if_neg (apart hole)]

/-! ## The arguments of an engine -/

theorem Placeholder.before_eq {front back : List Placeholder} (split : all = front ++ hole :: back) :
    front = hole.before := by
  have nodup : (front ++ hole :: back).Nodup := split ▸ (by decide : all.Nodup)
  have others : ∀ other ∈ front, decide (other ≠ hole) = true := fun other member => by
    simpa using (List.nodup_append.mp nodup).2.2 other member hole List.mem_cons_self
  rw [before, split, List.takeWhile_append_of_pos others]
  simp

theorem undisturbed_schema (request : Request) (arg : List Char) :
    request.Undisturbed arg Placeholder.schema.before .schema :=
  .inl (congrArg _ (partlyFilled_nil request arg))

theorem fill_eq_substitute {arg : String}
    (each : ∀ hole : Placeholder, request.Undisturbed arg.toList hole.before hole) :
    request.fill arg = request.substitute arg := by
  have filled : request.replaceEach Placeholder.all (request.partlyFilled [] arg.toList) =
      request.partlyFilled ([] ++ Placeholder.all) arg.toList :=
    replaceEach_partlyFilled (by decide) fun front hole back split => by
      simpa [Placeholder.before_eq split] using each hole
  rw [partlyFilled_nil] at filled
  rw [fill_eq, substitute_eq, filled, List.nil_append]

theorem undisturbed_of_fill {arg : String} (moduleSlashed : '/' ∈ request.module.text.toList)
    (declarationSlashed : '/' ∈ request.declaration.text.toList)
    (same : request.fill arg = request.substitute arg) (hole : Placeholder) :
    request.Undisturbed arg.toList hole.before hole := by
  have schema := undisturbed_schema request arg.toList
  have fresh : Placeholder.schema ∉ ([] : List Placeholder) := List.not_mem_nil
  have pass := (replace_partlyFilled_iff request fresh arg.toList).mpr schema
  rw [partlyFilled_nil] at pass
  rw [fill_eq, substitute_eq] at same
  have later := String.ofList_injective same
  rw [Placeholder.all, replaceEach_cons, pass] at later
  have slashed : ∀ other ∈ [Placeholder.module, .declaration, .source].dropLast,
      '/' ∈ request.valueOf other := by
    simpa [valueOf] using ⟨moduleSlashed, declarationSlashed⟩
  have each : ∀ front back, [Placeholder.module, .declaration, .source] = front ++ hole :: back →
      request.Undisturbed arg.toList ([.schema] ++ front) hole := fun _ _ =>
    undisturbed_of_replaceEach (by decide) slashed later
  cases hole with
  | schema => exact schema
  | module => exact each [] _ rfl
  | declaration => exact each [.module] _ rfl
  | source => exact each [.module, .declaration] _ rfl

instance (arg : List Char) (done : List Placeholder) (hole : Placeholder) :
    Decidable (request.Undisturbed arg done hole) :=
  inferInstanceAs (Decidable (_ ∨ _))

/-- The arguments are the configured ones with their placeholders replaced at once whenever no value completes a
placeholder that is filled after it. Where the artifacts' paths hold a slash, as absolute ones do, that is the only
way; and values with a slash and no brace never complete one. -/
theorem arguments_simultaneous (request : Request) (args : List String) :
    ((∀ arg ∈ args, ∀ hole : Placeholder, request.Undisturbed arg.toList hole.before hole) →
      request.arguments args = args.map request.substitute) ∧
    ('/' ∈ request.module.text.toList → '/' ∈ request.declaration.text.toList →
      request.arguments args = args.map request.substitute →
      ∀ arg ∈ args, ∀ hole : Placeholder, request.Undisturbed arg.toList hole.before hole) ∧
    ((∀ hole : Placeholder, hole ≠ .source → '/' ∈ request.valueOf hole ∧ '{' ∉ request.valueOf hole ∧
        '}' ∉ request.valueOf hole) →
      request.arguments args = args.map request.substitute) := by
  rw [arguments, List.map_inj_left]
  refine ⟨fun each arg member => fill_eq_substitute (each arg member),
    fun moduleSlashed declarationSlashed same arg member =>
      undisturbed_of_fill moduleSlashed declarationSlashed (same arg member),
    fun plain arg _ => fill_eq_substitute fun hole => .inl ?_⟩
  refine (parted_parts arg.toList).occurrences_assemble ?_ fun other earlier => plain other ?_
  · cases hole <;> decide
  · rintro rfl
    cases hole <;> revert earlier <;> decide

/-- The path of a module may hold a placeholder that was filled before, and a brace of the argument stays. -/
theorem arguments_simultaneous_earlier :
    let request : Request :=
      ⟨"\x7bmodule\x7d.ts", "", [⟨"/p/s"⟩], ⟨"/c/\x7bschema\x7d.tsx"⟩, ⟨"/t/\x7bmodule\x7d.d.ts"⟩⟩
    let args := ["\x7b\x7bmodule\x7d", "\x7bdeclaration\x7d\x7bsource\x7d"]
    (∀ arg ∈ args, ∀ hole : Placeholder, request.Undisturbed arg.toList hole.before hole) ∧
    request.arguments args = ["\x7b/c/\x7bschema\x7d.tsx", "/t/\x7bmodule\x7d.d.ts\x7bmodule\x7d.ts"] := by
  intro request args
  have each : ∀ arg ∈ args, ∀ hole : Placeholder, request.Undisturbed arg.toList hole.before hole := by
    intro arg member hole
    revert arg
    cases hole <;> decide
  exact ⟨each, (arguments_simultaneous request args).1 each |>.trans (by decide)⟩

/-- A placeholder in the path of a source is expanded again in that of its module. -/
theorem arguments_expanded_again :
    let request : Request := ⟨"\x7bsource\x7d.ts", "", [], ⟨"/c/\x7bsource\x7d.ts-0.tsx"⟩, ⟨"/t/a.d.ts"⟩⟩
    request.substitute "\x7bmodule\x7d" = "/c/\x7bsource\x7d.ts-0.tsx" ∧
    request.arguments ["\x7bmodule\x7d"] = ["/c/\x7bsource\x7d.ts.ts-0.tsx"] ∧
    request.arguments ["\x7bmodule\x7d"] ≠ ["\x7bmodule\x7d"].map request.substitute := by
  decide

end TypedLiterals.Request
