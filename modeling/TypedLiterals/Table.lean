/-!
Tables from texts to values, in the order of their keys.

The order is that of code points, which is also the order of UTF-8 bytes. A table holds each key once,
so two tables with the same associations are equal.
-/

namespace TypedLiterals

/-- Associations whose keys increase. -/
structure Table (α : Type u) where
  entries : List (String × α)
  ordered : (entries.map Prod.fst).Pairwise (· < ·)

namespace Table

variable {α : Type u}

instance [Repr α] : Repr (Table α) := ⟨fun table depth => reprPrec table.entries depth⟩

theorem ext {left right : Table α} (same : left.entries = right.entries) : left = right := by
  cases left; cases right; cases same; rfl

instance [DecidableEq α] : DecidableEq (Table α) := fun left right =>
  if same : left.entries = right.entries then isTrue (ext same)
  else isFalse fun equal => same (equal ▸ rfl)

def empty : Table α := ⟨[], by simp⟩

instance : Inhabited (Table α) := ⟨empty⟩

def isEmpty (table : Table α) : Bool := table.entries.isEmpty

def size (table : Table α) : Nat := table.entries.length

def keys (table : Table α) : List String := table.entries.map Prod.fst

def values (table : Table α) : List α := table.entries.map Prod.snd

/-- The value of a key. -/
def find? (table : Table α) (key : String) : Option α :=
  table.entries.lookup key

def contains (table : Table α) (key : String) : Bool :=
  table.keys.contains key

/-- Associations in order with one more, which takes the place of one with the same key. -/
def insertInto (key : String) (value : α) : List (String × α) → List (String × α)
  | [] => [(key, value)]
  | (other, old) :: rest =>
    if key < other then (key, value) :: (other, old) :: rest
    else if key = other then (key, value) :: rest
    else (other, old) :: insertInto key value rest

theorem mem_keys_insertInto {key found : String} {value : α} {list : List (String × α)}
    (member : found ∈ (insertInto key value list).map Prod.fst) :
    found = key ∨ found ∈ list.map Prod.fst := by
  induction list with
  | nil => simpa [insertInto] using member
  | cons entry rest ih =>
      obtain ⟨other, old⟩ := entry
      simp only [insertInto] at member
      split at member
      · simpa using member
      · split at member
        · rcases List.mem_cons.mp member with same | below
          · exact .inl same
          · exact .inr (List.mem_cons_of_mem _ below)
        · rcases List.mem_cons.mp member with same | below
          · exact .inr (same ▸ List.mem_cons_self)
          · exact (ih below).imp_right (List.mem_cons_of_mem _)

theorem lt_of_not_lt_of_ne {left right : String} (notBelow : ¬ left < right)
    (different : left ≠ right) : right < left := by
  rcases String.le_total left right with below | above
  · exact absurd (String.le_antisymm below (String.not_lt.mp notBelow)) different
  · exact String.not_le.mp fun also => different (String.le_antisymm also above)

theorem insertInto_ordered (key : String) (value : α) {list : List (String × α)}
    (ordered : (list.map Prod.fst).Pairwise (· < ·)) :
    ((insertInto key value list).map Prod.fst).Pairwise (· < ·) := by
  induction list with
  | nil => simp [insertInto]
  | cons entry rest ih =>
      obtain ⟨other, old⟩ := entry
      simp only [List.map_cons, List.pairwise_cons] at ordered
      simp only [insertInto]
      split
      · next below =>
          simp only [List.map_cons, List.pairwise_cons]
          refine ⟨?_, ordered⟩
          intro found member
          rcases List.mem_cons.mp member with same | later
          · exact same ▸ below
          · exact String.lt_trans below (ordered.1 found later)
      · next notBelow =>
          split
          · next same =>
              cases same
              simpa only [List.map_cons, List.pairwise_cons] using ordered
          · next different =>
              simp only [List.map_cons, List.pairwise_cons]
              refine ⟨?_, ih ordered.2⟩
              intro found member
              rcases mem_keys_insertInto member with same | later
              · exact same ▸ lt_of_not_lt_of_ne notBelow different
              · exact ordered.1 found later

/-- The table with a value put under a key. -/
def insert (table : Table α) (key : String) (value : α) : Table α :=
  ⟨insertInto key value table.entries, insertInto_ordered key value table.ordered⟩

theorem filter_ordered (keep : String × α → Bool) {list : List (String × α)}
    (ordered : (list.map Prod.fst).Pairwise (· < ·)) :
    ((list.filter keep).map Prod.fst).Pairwise (· < ·) :=
  ordered.sublist (List.filter_sublist.map Prod.fst)

def filter (keep : String × α → Bool) (table : Table α) : Table α :=
  ⟨table.entries.filter keep, filter_ordered keep table.ordered⟩

/-- The table without a key. -/
def erase (table : Table α) (key : String) : Table α :=
  table.filter fun entry => entry.1 != key

/-- The table with the given associations; of several with one key the last counts. -/
def ofList (list : List (String × α)) : Table α :=
  list.foldl (fun table entry => table.insert entry.1 entry.2) empty

end Table

end TypedLiterals
