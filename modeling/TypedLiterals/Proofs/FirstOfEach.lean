import Mathlib.Data.List.Basic
import TypedLiterals.Generation.Missing

/-!
Elements told apart by a key.

Imports are added once for each fingerprint, and requests are made once for each source and fingerprint. What is
added or made is that of the first element with the key, in the order of the elements.
-/

namespace TypedLiterals

variable {α κ : Type} [DecidableEq κ] {key : α → κ} {element first : α} {elements rest chosen : List α}

/-- Whether elements are those that are the first with their key, in order. -/
structure FirstOfEach (key : α → κ) (elements chosen : List α) : Prop where
  first : ∀ element ∈ chosen, elements.find? (key · = key element) = some element
  every : ∀ element ∈ elements, ∃ other ∈ chosen, key other = key element
  ordered : chosen.Pairwise fun earlier later => ∃ front back, elements = front ++ back ∧ earlier ∈ front ∧
    ∀ other ∈ front, key other ≠ key later

namespace FirstOfEach

theorem nil : FirstOfEach key [] [] :=
  ⟨nofun, nofun, .nil⟩

theorem mem (firsts : FirstOfEach key elements chosen) (member : element ∈ chosen) : element ∈ elements :=
  List.mem_of_find?_eq_some (firsts.first element member)

theorem nodup (firsts : FirstOfEach key elements chosen) : (chosen.map key).Nodup :=
  List.pairwise_map.mpr (firsts.ordered.imp fun ⟨_, _, _, member, other⟩ => other _ member)

/-- Behind the first element those with another key count. -/
theorem cons (firsts : FirstOfEach key (rest.filter (key · ≠ key first)) chosen) :
    FirstOfEach key (first :: rest) (first :: chosen) := by
  have different : ∀ other ∈ chosen, key first ≠ key other := fun other member same => by
    simpa [same] using List.of_mem_filter (firsts.mem member)
  refine ⟨List.forall_mem_cons.mpr ⟨by simp, fun other member => ?_⟩, List.forall_mem_cons.mpr
    ⟨⟨first, List.mem_cons_self, rfl⟩, fun other member => ?_⟩, .cons (fun other member => ?_) ?_⟩
  · rw [List.find?_cons_of_neg (by simpa using different other member), ← firsts.first other member,
      List.find?_filter]
    congr 1
    funext candidate
    by_cases same : key candidate = key other
    · simp [same, Ne.symm (different other member)]
    · simp [same]
  · by_cases same : key other = key first
    · exact ⟨first, List.mem_cons_self, same.symm⟩
    · obtain ⟨chosenOne, inside, equal⟩ := firsts.every other
        (List.mem_filter.mpr ⟨member, by simpa using same⟩)
      exact ⟨chosenOne, List.mem_cons_of_mem _ inside, equal⟩
  · exact ⟨[first], rest, rfl, List.mem_cons_self, List.forall_mem_singleton.mpr (different other member)⟩
  · refine (List.pairwise_iff_forall_sublist.mpr fun {earlier later} pair => ?_)
    have member : later ∈ chosen := pair.subset (by simp)
    obtain ⟨front, back, split, inside, others⟩ := List.pairwise_iff_forall_sublist.mp firsts.ordered pair
    obtain ⟨ahead, behind, rfl, rfl, _⟩ := List.filter_eq_append_iff.mp split
    refine ⟨first :: ahead, behind, rfl, List.mem_cons_of_mem _ (List.mem_of_mem_filter inside),
      List.forall_mem_cons.mpr ⟨different later member, fun other listed same => ?_⟩⟩
    by_cases equal : key other = key first
    · exact different later member (equal.symm.trans same)
    · exact others other (List.mem_filter.mpr ⟨listed, by simpa using equal⟩) same

end FirstOfEach

theorem firstOfEach_newImports (imported : List String) (artifacts : List Artifact) :
    FirstOfEach (·.hash) (artifacts.filter (·.hash ∉ imported)) (newImports imported artifacts) := by
  induction artifacts generalizing imported with
  | nil => exact .nil
  | cons artifact rest ih =>
      rw [newImports]
      by_cases known : artifact.hash ∈ imported
      · rw [if_pos (List.contains_iff_mem.mpr known), List.filter_cons_of_neg (by simpa using known)]
        exact ih imported
      · rw [if_neg (by simpa using known), List.filter_cons_of_pos (by simpa using known)]
        refine .cons ?_
        rw [List.filter_filter]
        simpa [not_or] using ih (artifact.hash :: imported)

theorem Generation.firstOfEach_missingFrom (seen : List (String × String)) (records : List Record) :
    FirstOfEach (fun record => (record.source, record.hash))
      (records.filter fun record => !(record.skip || seen.contains (record.source, record.hash)))
      (missingFrom seen records) := by
  induction records generalizing seen with
  | nil => exact .nil
  | cons record rest ih =>
      rw [missingFrom]
      by_cases known : (record.skip || seen.contains (record.source, record.hash)) = true
      · rw [if_pos known, List.filter_cons_of_neg (by rw [known]; decide)]
        exact ih seen
      · rw [if_neg known, List.filter_cons_of_pos (by simpa using known)]
        refine .cons ?_
        rw [List.filter_filter]
        refine (congrArg (FirstOfEach _ · _) (List.filter_congr fun other _ => ?_)).mp
          (ih ((record.source, record.hash) :: seen))
        rw [Bool.eq_iff_iff]
        simp only [List.contains_cons, Bool.not_eq_true', Bool.or_eq_false_iff, beq_eq_false_iff_ne, ne_eq,
          Bool.and_eq_true, decide_eq_true_eq]
        tauto

/-- What is generated is the first of each source and fingerprint among the records that are not skipped. -/
theorem Generation.firstOfEach_missing (records : List Record) :
    FirstOfEach (fun record => (record.source, record.hash)) (records.filter (!·.skip))
      (missingFrom [] records) := by
  simpa using firstOfEach_missingFrom [] records

end TypedLiterals
