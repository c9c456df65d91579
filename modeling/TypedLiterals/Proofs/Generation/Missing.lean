import TypedLiterals.Generation.Missing
import TypedLiterals.Proofs.Disk.Operations

/-!
What generating artifacts does to a disk.

Every call of the engine is preceded by making sure of directories. What directories and the calls that
are made preserve holds after all of them, and when no call fails each record that was not skipped has
had one for its source and fingerprint.
-/

namespace TypedLiterals

variable {project : Project} {engine : Engine} {records : List Record} {workspace : Workspace}
  {record : Record} {Holds : Disk → Prop}

namespace Generation

theorem mem_of_mem_missingFrom {seen : List (String × String)} (member : record ∈ missingFrom seen records) :
    record ∈ records ∧ record.skip = false := by
  induction records generalizing seen with
  | nil => contradiction
  | cons first rest ih =>
      rw [missingFrom] at member
      split at member
      · exact (ih member).imp_left (List.mem_cons_of_mem _)
      · next wanted =>
          rcases List.mem_cons.mp member with rfl | later
          · exact ⟨List.mem_cons_self, by simp_all⟩
          · exact (ih later).imp_left (List.mem_cons_of_mem _)

/-- Every record that is not skipped has one of its source and fingerprint among those generated. -/
theorem exists_mem_missingFrom (seen : List (String × String)) (member : record ∈ records)
    (wanted : record.skip = false) :
    (record.source, record.hash) ∈ seen ∨
      ∃ other ∈ missingFrom seen records, other.source = record.source ∧ other.hash = record.hash := by
  induction records generalizing seen with
  | nil => contradiction
  | cons first rest ih =>
      rw [missingFrom]
      rcases List.mem_cons.mp member with rfl | later
      · split
        · next known => exact .inl (by simpa [wanted] using known)
        · exact .inr ⟨record, List.mem_cons_self, rfl, rfl⟩
      · split
        · exact ih seen later
        · rcases ih ((first.source, first.hash) :: seen) later with known | ⟨other, found, same⟩
          · rcases List.mem_cons.mp known with same | known
            · obtain ⟨source, hash⟩ := Prod.mk.inj same
              exact .inr ⟨first, List.mem_cons_self, source.symm, hash.symm⟩
            · exact .inl known
          · exact .inr ⟨other, List.mem_cons_of_mem _ found, same⟩

theorem ensureDirectories_grows (record : Record) (disk : Disk) :
    disk.Grows (ensureDirectories record disk).2 := by
  have first := Disk.ensureParent_grows disk record.location.module
  unfold ensureDirectories
  cases made : disk.ensureParent record.location.module with
  | mk result after =>
      rw [made] at first
      cases result with
      | error fault => exact first
      | ok _ =>
          have second := Disk.ensureParent_grows after record.location.declaration
          cases last : after.ensureParent record.location.declaration with
          | mk result disk =>
              rw [last] at second
              cases result <;> simpa [last] using first.trans second

/-- What a generation does: directories are added, and then the engine is called unless that failed. -/
theorem generate_cases (project : Project) (engine : Engine) (record : Record) (workspace : Workspace) :
    ∃ prepared, workspace.disk.Grows prepared ∧
      (((∃ cause, (generate project engine record workspace).1 = .error cause) ∧
        (generate project engine record workspace).2.disk = prepared) ∨
      ((generate project engine record workspace).1 =
          (engine (request project record) prepared).1.mapError (.generation record.source record.literal) ∧
        (generate project engine record workspace).2.disk = (engine (request project record) prepared).2)) := by
  have grows := ensureDirectories_grows record workspace.disk
  unfold generate
  cases made : ensureDirectories record workspace.disk with
  | mk result prepared =>
      rw [made] at grows
      refine ⟨prepared, grows, ?_⟩
      cases result with
      | error cause => exact .inl ⟨⟨cause, rfl⟩, rfl⟩
      | ok _ => exact .inr ⟨rfl, rfl⟩

theorem generateAll_cons (project : Project) (engine : Engine) (first : Record) (rest : List Record)
    (workspace : Workspace) :
    generateAll project engine (first :: rest) workspace =
      ((generate project engine first workspace).1 ::
        (generateAll project engine rest (generate project engine first workspace).2).1,
        (generateAll project engine rest (generate project engine first workspace).2).2) := rfl

section Preserved

variable (grows : ∀ before after, before.Grows after → Holds before → Holds after)
include grows

theorem generate_preserves
    (answers : ∀ disk, Holds disk → Holds (engine (request project record) disk).2)
    (holds : Holds workspace.disk) : Holds (generate project engine record workspace).2.disk := by
  obtain ⟨prepared, grown, ⟨_, same⟩ | ⟨_, same⟩⟩ := generate_cases project engine record workspace
  · exact same ▸ grows _ _ grown holds
  · exact same ▸ answers _ (grows _ _ grown holds)

theorem generateAll_preserves
    (answers : ∀ record ∈ records, ∀ disk, Holds disk → Holds (engine (request project record) disk).2)
    (holds : Holds workspace.disk) : Holds (generateAll project engine records workspace).2.disk := by
  induction records generalizing workspace with
  | nil => exact holds
  | cons first rest ih =>
      rw [generateAll_cons]
      apply ih fun other member => answers other (List.mem_cons_of_mem _ member)
      exact generate_preserves grows (answers first List.mem_cons_self) holds

end Preserved

theorem firstError_eq_ok {answers : List (Except Project.Error Unit)} (ok : firstError answers = .ok ()) :
    ∀ answer ∈ answers, answer = .ok () := by
  fun_induction firstError answers with
  | case1 => simp
  | case2 => contradiction
  | case3 _ rest ih => exact List.forall_mem_cons.mpr ⟨rfl, ih ok⟩

theorem firstError_of_ok {answers : List (Except Project.Error Unit)} (ok : ∀ answer ∈ answers, answer = .ok ()) :
    firstError answers = .ok () := by
  induction answers with
  | nil => rfl
  | cons first rest ih =>
      rw [ok first List.mem_cons_self, firstError]
      exact ih fun answer member => ok answer (List.mem_cons_of_mem _ member)

theorem firstError_append {front back : List (Except Project.Error Unit)} {cause : Project.Error}
    (ok : ∀ answer ∈ front, answer = .ok ()) :
    firstError (front ++ .error cause :: back) = .error cause := by
  induction front with
  | nil => rfl
  | cons first rest ih =>
      rw [List.cons_append, ok first List.mem_cons_self, firstError]
      exact ih fun answer member => ok answer (List.mem_cons_of_mem _ member)

theorem exists_of_firstError {answers : List (Except Project.Error Unit)} {cause : Project.Error}
    (first : firstError answers = .error cause) :
    ∃ front back, answers = front ++ .error cause :: back ∧ ∀ answer ∈ front, answer = .ok () := by
  fun_induction firstError answers with
  | case1 => cases first
  | case2 failure rest =>
      cases first
      exact ⟨[], rest, rfl, nofun⟩
  | case3 _ rest ih =>
      obtain ⟨front, back, split, ok⟩ := ih first
      exact ⟨.ok () :: front, back, by rw [split, List.cons_append], List.forall_mem_cons.mpr ⟨rfl, ok⟩⟩

theorem length_generateAll (project : Project) (engine : Engine) (records : List Record) (workspace : Workspace) :
    (generateAll project engine records workspace).1.length = records.length := by
  induction records generalizing workspace with
  | nil => rfl
  | cons first rest ih => rw [generateAll_cons, List.length_cons, List.length_cons, ih]

/-- An engine that takes nothing away and makes no link, and leaves both files when it succeeds. -/
structure Faithful (engine : Engine) : Prop where
  keeps : ∀ request (disk : Disk), disk.Keeps (engine request disk).2
  made : ∀ request disk, (engine request disk).1 = .ok () →
    (engine request disk).2.isFile request.module = true ∧
      (engine request disk).2.isFile request.declaration = true

theorem generate_made (faithful : Faithful engine)
    (ok : (generate project engine record workspace).1 = .ok ()) :
    (generate project engine record workspace).2.disk.isFile record.location.module = true ∧
      (generate project engine record workspace).2.disk.isFile record.location.declaration = true := by
  obtain ⟨prepared, _, ⟨⟨cause, failed⟩, _⟩ | ⟨answer, same⟩⟩ :=
    generate_cases project engine record workspace
  · rw [failed] at ok
    contradiction
  · rw [same]
    apply faithful.made (request project record)
    rw [answer] at ok
    cases given : (engine (request project record) prepared).1 with
    | error cause =>
        rw [given] at ok
        contradiction
    | ok _ => rfl

theorem generateAll_keeps (faithful : Faithful engine) :
    workspace.disk.Keeps (generateAll project engine records workspace).2.disk :=
  generateAll_preserves (fun _ _ grows kept => kept.trans grows.keeps)
    (fun _ _ _ kept => kept.trans (faithful.keeps _ _)) (.refl _)

theorem generateAll_made (faithful : Faithful engine)
    (ok : ∀ answer ∈ (generateAll project engine records workspace).1, answer = .ok ()) :
    ∀ record ∈ records,
      (generateAll project engine records workspace).2.disk.isFile record.location.module = true ∧
        (generateAll project engine records workspace).2.disk.isFile record.location.declaration = true := by
  induction records generalizing workspace with
  | nil => nofun
  | cons first rest ih =>
      rw [generateAll_cons] at ok ⊢
      dsimp only at ok ⊢
      obtain ⟨okFirst, okRest⟩ := List.forall_mem_cons.mp ok
      intro record member
      rcases List.mem_cons.mp member with rfl | later
      · have made := generate_made faithful okFirst
        have kept : (generate project engine record workspace).2.disk.Keeps
            (generateAll project engine rest (generate project engine record workspace).2).2.disk :=
          generateAll_keeps faithful
        exact ⟨kept.isFile made.1, kept.isFile made.2⟩
      · exact ih okRest record later

end Generation

open Generation

/-- What succeeds in generating leaves both files for every record that had to be generated. -/
theorem generateMissing_made {count : Nat} (faithful : Faithful engine)
    (ok : (generateMissing project engine records workspace).1 = .ok count) (member : record ∈ records)
    (wanted : record.skip = false) :
    ∃ other ∈ records, other.source = record.source ∧ other.hash = record.hash ∧
      (generateMissing project engine records workspace).2.disk.isFile other.location.module = true ∧
      (generateMissing project engine records workspace).2.disk.isFile other.location.declaration = true := by
  obtain known | ⟨other, pending, source, hash⟩ := exists_mem_missingFrom [] member wanted
  · contradiction
  · have answers : firstError (generateAll project engine (missingFrom [] records) workspace).1 = .ok () := by
      unfold generateMissing at ok
      cases first : firstError (generateAll project engine (missingFrom [] records) workspace).1 with
      | error cause => simp [first, Except.map] at ok
      | ok _ => rfl
    have made := generateAll_made faithful (firstError_eq_ok answers) other pending
    exact ⟨other, (mem_of_mem_missingFrom pending).1, source, hash, made⟩

theorem generateMissing_preserves
    (grows : ∀ before after : Disk, before.Grows after → Holds before → Holds after)
    (answers : ∀ record ∈ records, record.skip = false → ∀ disk, Holds disk →
      Holds (engine (request project record) disk).2)
    (holds : Holds workspace.disk) : Holds (generateMissing project engine records workspace).2.disk := by
  apply generateAll_preserves grows _ holds
  intro record member disk
  obtain ⟨listed, wanted⟩ := mem_of_mem_missingFrom member
  exact answers record listed wanted disk

/-! ## An engine -/

/-- An engine that writes an empty file for each artifact. -/
def blankEngine : Engine := fun request disk =>
  match disk.writeText request.module "" with
  | .error cause => (.error (.fault cause), disk)
  | .ok written =>
    match written.writeText request.declaration "" with
    | .error cause => (.error (.fault cause), written)
    | .ok last => (.ok (), last)

theorem blankEngine_cases (request : Request) (disk : Disk) :
    (∃ cause, blankEngine request disk = (.error cause, disk)) ∨
    ∃ written, disk.writeText request.module "" = .ok written ∧
      ((∃ cause, blankEngine request disk = (.error cause, written)) ∨
      ∃ last, written.writeText request.declaration "" = .ok last ∧
        blankEngine request disk = (.ok (), last)) := by
  unfold blankEngine
  cases first : disk.writeText request.module "" with
  | error cause => exact .inl ⟨_, rfl⟩
  | ok written =>
      refine .inr ⟨written, rfl, ?_⟩
      cases second : written.writeText request.declaration "" with
      | error cause => exact .inl ⟨.fault cause, by simp [second]⟩
      | ok last => exact .inr ⟨last, rfl, by simp [second]⟩

theorem faithful_blankEngine : Faithful blankEngine where
  keeps := by
    intro request disk
    obtain ⟨_, same⟩ | ⟨written, first, ⟨_, same⟩ | ⟨last, second, same⟩⟩ := blankEngine_cases request disk
    · rw [same]
      exact .refl disk
    · rw [same]
      exact Disk.keeps_write first
    · rw [same]
      exact (Disk.keeps_write first).trans (Disk.keeps_write second)
  made := by
    intro request disk ok
    obtain ⟨_, same⟩ | ⟨written, first, ⟨_, same⟩ | ⟨last, second, same⟩⟩ := blankEngine_cases request disk
    · rw [same] at ok
      contradiction
    · rw [same] at ok
      contradiction
    · rw [same]
      exact ⟨(Disk.keeps_write second).isFile (Disk.isFile_of_write first), Disk.isFile_of_write second⟩

end TypedLiterals
