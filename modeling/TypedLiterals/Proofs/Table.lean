import Mathlib.Data.List.Nodup
import Mathlib.Data.List.Perm.Basic
import TypedLiterals.Table

/-!
Tables as partial maps.

A table is determined by what `find?` answers for each key, and every operation has one equation that
says how it changes these answers.
-/

namespace TypedLiterals.Table

variable {α : Type u} {table left right : Table α} {key other : String} {value : α}

theorem keys_nodup (table : Table α) : table.keys.Nodup :=
  table.ordered.imp fun below => String.ne_of_lt below

theorem lookup_cons (list : List (String × α)) :
    ((key, value) :: list).lookup other = if other = key then some value else list.lookup other := by
  by_cases same : other = key
  · simp [same]
  · simp [List.lookup_cons, same, beq_false_of_ne same]

theorem lookup_eq_none {list : List (String × α)} :
    list.lookup key = none ↔ key ∉ list.map Prod.fst := by
  induction list with
  | nil => simp
  | cons entry rest ih =>
      obtain ⟨first, value⟩ := entry
      rw [lookup_cons]
      by_cases same : key = first
      · simp [same]
      · simp [same, ih]

theorem lookup_eq_some {list : List (String × α)} (distinct : (list.map Prod.fst).Nodup) :
    list.lookup key = some value ↔ (key, value) ∈ list := by
  induction list with
  | nil => simp
  | cons entry rest ih =>
      obtain ⟨first, old⟩ := entry
      simp only [List.map_cons, List.nodup_cons] at distinct
      rw [lookup_cons]
      by_cases same : key = first
      · subst same
        have absent : (key, value) ∉ rest := fun member =>
          distinct.1 (List.mem_map_of_mem (f := Prod.fst) member)
        simp [absent, eq_comm]
      · simp [same, ih distinct.2]

theorem lookup_insertInto (list : List (String × α)) :
    (insertInto key value list).lookup other =
      if other = key then some value else list.lookup other := by
  induction list with
  | nil => simp [insertInto, lookup_cons]
  | cons entry rest ih =>
      obtain ⟨first, old⟩ := entry
      simp only [insertInto]
      split
      · rw [lookup_cons]
      · split
        · next same =>
            subst same
            rw [lookup_cons, lookup_cons]
            split <;> rfl
        · next different =>
            rw [lookup_cons, lookup_cons, ih]
            by_cases same : other = first
            · simp [same, Ne.symm different]
            · simp [same]

theorem lookup_filter (keep : String × α → Bool) {list : List (String × α)}
    (distinct : (list.map Prod.fst).Nodup) :
    (list.filter keep).lookup key = (list.lookup key).filter fun value => keep (key, value) := by
  apply Option.ext
  intro value
  have distinctKept : ((list.filter keep).map Prod.fst).Nodup :=
    distinct.sublist (List.filter_sublist.map Prod.fst)
  rw [lookup_eq_some distinctKept, List.mem_filter, Option.filter_eq_some_iff, lookup_eq_some distinct]

theorem mem_entries : (key, value) ∈ table.entries ↔ table.find? key = some value :=
  (lookup_eq_some table.keys_nodup).symm

theorem mem_keys : key ∈ table.keys ↔ ∃ value, table.find? key = some value := by
  rw [← Option.isSome_iff_exists, ← Option.ne_none_iff_isSome]
  exact not_iff_not.mp (by rw [not_not]; exact lookup_eq_none.symm)

@[simp] theorem contains_eq_true : table.contains key = true ↔ ∃ value, table.find? key = some value := by
  rw [contains, List.contains_iff_mem, mem_keys]

@[simp] theorem find?_empty : (empty : Table α).find? key = none := rfl

@[simp] theorem find?_insert :
    (table.insert key value).find? other = if other = key then some value else table.find? other :=
  lookup_insertInto table.entries

theorem find?_filter (keep : String × α → Bool) :
    (table.filter keep).find? key = (table.find? key).filter fun value => keep (key, value) :=
  lookup_filter keep table.keys_nodup

@[simp] theorem find?_erase :
    (table.erase key).find? other = if other = key then none else table.find? other := by
  rw [erase, find?_filter]
  by_cases same : other = key
  · simp [same]
  · cases table.find? other with
    | none => simp [same]
    | some value => simp [same]

theorem find?_foldl_erase (keys : List String) (table : Table α) :
    (keys.foldl erase table).find? other = if other ∈ keys then none else table.find? other := by
  induction keys generalizing table with
  | nil => simp
  | cons key rest ih =>
      rw [List.foldl_cons, ih, find?_erase]
      by_cases later : other ∈ rest
      · simp [later]
      · simp [later]

theorem ext_find? (same : ∀ key, left.find? key = right.find? key) : left = right := by
  have members : ∀ entry, entry ∈ left.entries ↔ entry ∈ right.entries := by
    rintro ⟨key, value⟩
    rw [mem_entries, mem_entries, same]
  have permuted : left.entries.Perm right.entries :=
    (List.perm_ext_iff_of_nodup left.keys_nodup.of_map right.keys_nodup.of_map).mpr members
  have leftSorted : left.entries.Pairwise fun first second => first.1 < second.1 :=
    List.pairwise_map.mp left.ordered
  have rightSorted : right.entries.Pairwise fun first second => first.1 < second.1 :=
    List.pairwise_map.mp right.ordered
  apply ext
  refine permuted.eq_of_pairwise (fun first second _ _ below above => ?_) leftSorted rightSorted
  exact absurd (String.lt_trans below above) (String.lt_irrefl _)

theorem isEmpty_eq_true : table.isEmpty = true ↔ ∀ key, table.find? key = none := by
  constructor
  · intro empty key
    have none : table.entries = [] := List.isEmpty_iff.mp empty
    simp [find?, none]
  · intro none
    have same : table = empty := ext_find? fun key => by rw [none key, find?_empty]
    rw [same]
    rfl

theorem eq_empty (isEmpty : table.isEmpty = true) : table = empty :=
  ext_find? fun key => by rw [isEmpty_eq_true.mp isEmpty key, find?_empty]

/-- Inserting associations one after another leaves the last one of each key. -/
theorem find?_foldl_insert (list : List (String × α)) (table : Table α) :
    (list.foldl (fun table entry => table.insert entry.1 entry.2) table).find? other =
      (list.reverse.lookup other).or (table.find? other) := by
  induction list generalizing table with
  | nil => simp
  | cons entry rest ih =>
      obtain ⟨key, value⟩ := entry
      rw [List.foldl_cons, ih, find?_insert, List.reverse_cons, List.lookup_append, lookup_cons]
      by_cases same : other = key
      · simp [same]
      · simp [same]

theorem find?_ofList (list : List (String × α)) :
    (ofList list).find? other = list.reverse.lookup other := by
  rw [ofList, find?_foldl_insert, find?_empty, Option.or_none]

theorem ofList_entries (table : Table α) : ofList table.entries = table := by
  apply ext_find?
  intro key
  rw [find?_ofList]
  apply Option.ext
  intro value
  have distinct : (table.entries.reverse.map Prod.fst).Nodup := by
    rw [List.map_reverse, List.nodup_reverse]
    exact table.keys_nodup
  rw [lookup_eq_some distinct, List.mem_reverse, mem_entries]

end TypedLiterals.Table
