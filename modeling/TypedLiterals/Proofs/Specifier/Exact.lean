import TypedLiterals.Proofs.Specifier

/-!
Exactly which specifiers lead to their target.

A specifier counts the steps of the directory that the target does not share and goes up once for each of
them. A step of the directory that leads up is counted like a name, so the way back ends above the directory
in which both paths part. From there the steps of the target lead elsewhere, unless they climb to the root.
-/

namespace TypedLiterals

namespace Disk

variable {place : Place} {names : List String}

/-- Steps go up a fixed number of times from wherever they start, and then down. -/
theorem exists_resolve (names : List String) :
    ∃ up rest, rest.length ≤ names.length ∧
      ∀ place, resolve place names = place.take (place.length - up) ++ rest := by
  induction names using List.reverseRecOn with
  | nil => exact ⟨0, [], le_rfl, fun place => by simp [resolve]⟩
  | append_singleton front name ih =>
      obtain ⟨up, rest, bounded, leads⟩ := ih
      simp only [resolve_append, leads, List.length_append, List.length_singleton]
      by_cases dot : name = "."
      · exact ⟨up, rest, by omega, fun place => by rw [resolve, if_pos dot, resolve]⟩
      by_cases climbs : name = ".."
      · simp only [resolve, if_neg dot, if_pos climbs]
        rcases List.eq_nil_or_concat rest with rfl | ⟨before, last, rfl⟩
        · refine ⟨up + 1, [], by simp, fun place => ?_⟩
          rw [List.append_nil, List.append_nil, List.dropLast_eq_take, List.take_take, List.length_take]
          congr 1
          omega
        · rw [List.concat_eq_append, List.length_append, List.length_singleton] at bounded
          refine ⟨up, before, by omega, fun place => ?_⟩
          rw [List.concat_eq_append, ← List.append_assoc, List.dropLast_concat]
      · refine ⟨up, rest ++ [name], by simpa using bounded, fun place => ?_⟩
        rw [resolve, if_neg dot, if_neg climbs, resolve, List.append_assoc]

theorem resolve_replicate (place : Place) (count : Nat) :
    resolve place (List.replicate count "..") = place.take (place.length - count) := by
  induction count generalizing place with
  | zero => simp [resolve]
  | succ count ih =>
      rw [List.replicate_succ, resolve, if_neg (by decide), if_pos rfl, ih, List.length_dropLast,
        List.dropLast_eq_take, List.take_take]
      congr 1
      omega

theorem length_resolve_le (place : Place) (names : List String) :
    (resolve place names).length ≤ place.length + names.length := by
  obtain ⟨up, rest, bounded, leads⟩ := exists_resolve names
  rw [leads, List.length_append, List.length_take]
  omega

/-- Steps one of which leads up do not get as far down as there are of them. -/
theorem length_resolve_lt (climbs : ".." ∈ names) (below : place ≠ []) :
    (resolve place names).length < place.length + names.length := by
  obtain ⟨front, back, rfl⟩ := List.append_of_mem climbs
  have before := length_resolve_le place front
  have after := length_resolve_le (resolve place front).dropLast back
  have present := List.length_pos_iff.mpr below
  rw [resolve_append, resolve, if_neg (by decide), if_pos rfl, List.length_append, List.length_cons]
  rw [List.length_dropLast] at after
  omega

/-- Going up once for each of some steps, one of which leads up, ends above the start. -/
theorem exists_take_of_climbs (climbs : ".." ∈ names) (below : place ≠ []) :
    ∃ count < place.length, resolve (resolve place names) (List.replicate names.length "..") = place.take count := by
  have short := length_resolve_lt climbs below
  have present := List.length_pos_iff.mpr below
  obtain ⟨up, rest, bounded, leads⟩ := exists_resolve names
  refine ⟨min ((resolve place names).length - names.length) (place.length - up), by omega, ?_⟩
  have inside : (resolve place names).length - names.length ≤ (place.take (place.length - up)).length := by
    rw [leads, List.length_append]
    omega
  rw [resolve_replicate]
  generalize (resolve place names).length - names.length = count at inside
  rw [leads, List.take_append_of_le_length inside, List.take_take]

/-- From further up, steps lead to the same place exactly when they climb to the root from both. -/
theorem resolve_take_eq_iff {count : Nat} (above : count < place.length) :
    resolve (place.take count) names = resolve place names ↔ resolve place names = resolve [] names := by
  obtain ⟨up, rest, _, leads⟩ := exists_resolve names
  rw [leads, leads, leads, List.append_left_inj, List.append_left_inj]
  constructor
  · intro same
    have lengths := congrArg List.length same
    simp only [List.length_take] at lengths
    have climbed : place.length - up = 0 := by omega
    rw [climbed, List.take_zero, List.take_nil]
  · intro same
    have lengths := congrArg List.length same
    simp only [List.length_take, List.length_nil] at lengths
    have climbed : place.length - up = 0 := by omega
    have climbedToo : (place.take count).length - up = 0 := by
      rw [List.length_take]
      omega
    rw [climbed, climbedToo, List.take_zero, List.take_zero]

end Disk

namespace Path

variable {directory target : Path}

/-- A specifier starts with a dot or a step up. From its directory it names the place of its target, the ending
put back if it was left out, exactly when the directory goes down only from where the two paths part, or the
target climbs to the root from there. -/
theorem specifier_reaches_iff (rooted : directory.isAbsolute = true) (targetRooted : target.isAbsolute = true)
    (extension : String) :
    (['.', '/'] <+: (specifier directory target extension).toList ∨
      ['.', '.', '/'] <+: (specifier directory target extension).toList) ∧
    (Disk.placeOf (imported directory target extension) = Disk.placeOf target ↔
      ".." ∉ directory.beyond target ∨ Disk.placeOf target = Disk.resolve [] (target.beyond directory)) := by
  refine ⟨starts_specifier directory target extension, ?_⟩
  rw [placeOf_imported rooted targetRooted]
  by_cases climbs : ".." ∈ directory.beyond target
  · have goal := placeOf_eq_meeting target directory
    rw [meeting_comm] at goal
    rw [goal, placeOf_eq_meeting directory target, route, Disk.resolve_append, or_iff_right (not_not_intro climbs)]
    by_cases start : directory.meeting target = []
    · -- The paths part at the root, and the way back ends there as well.
      have short : (Disk.resolve [] (directory.beyond target)).length ≤ (directory.beyond target).length := by
        simpa using Disk.length_resolve_le [] (directory.beyond target)
      rw [start, Disk.resolve_replicate, Nat.sub_eq_zero_of_le short, List.take_zero]
    · obtain ⟨count, above, back⟩ := Disk.exists_take_of_climbs climbs start
      rw [back, Disk.resolve_take_eq_iff above]
  · rw [iff_true_intro (Or.inl climbs), iff_true]
    exact resolve_route fun name member =>
      ⟨ne_dot_of_mem_steps (List.mem_of_mem_drop member), fun up => climbs (up ▸ member)⟩

theorem specifier_reaches_shared :
    isAbsolute ⟨"/p/../q/src"⟩ = true ∧ isAbsolute ⟨"/p/../q/c/x.tsx"⟩ = true ∧
    specifier ⟨"/p/../q/src"⟩ ⟨"/p/../q/c/x.tsx"⟩ ".tsx" = "../c/x" ∧
    Disk.placeOf (imported ⟨"/p/../q/src"⟩ ⟨"/p/../q/c/x.tsx"⟩ ".tsx") = Disk.placeOf ⟨"/p/../q/c/x.tsx"⟩ := by
  have rooted : isAbsolute ⟨"/p/../q/src"⟩ = true := by decide +kernel
  have targetRooted : isAbsolute ⟨"/p/../q/c/x.tsx"⟩ = true := by decide +kernel
  have goesDown : ".." ∉ beyond ⟨"/p/../q/src"⟩ ⟨"/p/../q/c/x.tsx"⟩ := by decide +kernel
  exact ⟨rooted, targetRooted, by decide +kernel,
    (specifier_reaches_iff rooted targetRooted ".tsx").2.mpr (.inl goesDown)⟩

/-- From a directory beside the project, written with a step up, the specifier names another file. -/
theorem specifier_misses :
    isAbsolute ⟨"/h/p/../out"⟩ = true ∧ isAbsolute ⟨"/h/p/c/x.tsx"⟩ = true ∧
    specifier ⟨"/h/p/../out"⟩ ⟨"/h/p/c/x.tsx"⟩ ".tsx" = "../../c/x" ∧
    Disk.placeOf (imported ⟨"/h/p/../out"⟩ ⟨"/h/p/c/x.tsx"⟩ ".tsx") = ["c", "x.tsx"] ∧
    Disk.placeOf (imported ⟨"/h/p/../out"⟩ ⟨"/h/p/c/x.tsx"⟩ ".tsx") ≠ Disk.placeOf ⟨"/h/p/c/x.tsx"⟩ := by
  decide +kernel

end Path

end TypedLiterals
