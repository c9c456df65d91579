import Mathlib.Logic.Relation
import TypedLiterals.Proofs.FirstOfEach
import TypedLiterals.Proofs.Generation.Missing

/-!
Calls of the engine that are under way together.

The calls for all records begin together. Each makes sure of its two directories, asks the engine and waits for
the answer, while other calls and the engines may do anything to the disk. In whatever order they go on, the
engine is asked once for each source and fingerprint, and what is reported is the first failure in the order of
the records.
-/

namespace TypedLiterals.Generation

variable {project : Project} {outcome : Request → Except Engine.Error Unit} {engine : Engine}
  {records pending : List Record} {record : Record} {workspace after : Workspace} {asked : List Request}
  {answers : List (Except Project.Error Unit)}

/-! ## Calls under way -/

/-- How far the call for one record has come. -/
inductive Call where
  /-- The directories of some artifacts are still to be made sure of. -/
  | preparing (left : List Path)
  | asked
  | answered (answer : Except Project.Error Unit)

/-- The calls for some records, and what they work on. -/
structure Calls where
  slots : List (Record × Call)
  workspace : Workspace

/-- A call before its first step. -/
def Call.first (record : Record) : Record × Call :=
  (record, .preparing [record.location.module, record.location.declaration])

/-- What an answer of the engine is reported as. -/
def reported (project : Project) (outcome : Request → Except Engine.Error Unit) (record : Record) :
    Except Project.Error Unit :=
  (outcome (request project record)).mapError (.generation record.source record.literal)

/-- One step of one call. A directory that cannot be made ends it. While an engine works, the disk may change in
any way. -/
inductive Calls.Step (project : Project) (outcome : Request → Except Engine.Error Unit) : Calls → Calls → Prop
  | prepare {front back : List (Record × Call)} {record : Record} {path : Path} {left : List Path}
      {workspace : Workspace} {disk : Disk} :
      workspace.disk.ensureParent path = (.ok (), disk) →
      Step project outcome ⟨front ++ (record, .preparing (path :: left)) :: back, workspace⟩
        ⟨front ++ (record, .preparing left) :: back, { workspace with disk }⟩
  | blocked {front back : List (Record × Call)} {record : Record} {path parent : Path} {left : List Path}
      {cause : Disk.Fault} {workspace : Workspace} {disk : Disk} :
      workspace.disk.ensureParent path = (.error (parent, cause), disk) →
      Step project outcome ⟨front ++ (record, .preparing (path :: left)) :: back, workspace⟩
        ⟨front ++ (record, .answered (.error (.io parent cause))) :: back, { workspace with disk }⟩
  | ask {front back : List (Record × Call)} {record : Record} {workspace : Workspace} :
      Step project outcome ⟨front ++ (record, .preparing []) :: back, workspace⟩
        ⟨front ++ (record, .asked) :: back,
          { workspace with requests := request project record :: workspace.requests }⟩
  | answer {front back : List (Record × Call)} {record : Record} {workspace : Workspace} :
      Step project outcome ⟨front ++ (record, .asked) :: back, workspace⟩
        ⟨front ++ (record, .answered (reported project outcome record)) :: back, workspace⟩
  | work {slots : List (Record × Call)} {workspace : Workspace} (disk : Disk) :
      Step project outcome ⟨slots, workspace⟩ ⟨slots, { workspace with disk }⟩

/-- Whether calls for what is missing can all be answered so, with this left behind. -/
def Dispatches (project : Project) (outcome : Request → Except Engine.Error Unit) (records : List Record)
    (workspace : Workspace) (answers : List (Except Project.Error Unit)) (after : Workspace) : Prop :=
  ∃ slots, Relation.ReflTransGen (Calls.Step project outcome)
      ⟨(missingFrom [] records).map Call.first, workspace⟩ ⟨slots, after⟩ ∧
    slots.map (·.2) = answers.map .answered

/-- What answers come to together: their number, or the first failure. -/
def collected (answers : List (Except Project.Error Unit)) : Except Project.Error Nat :=
  (firstError answers).map fun _ => answers.length

theorem reported_eq_ok : reported project outcome record = .ok () ↔ outcome (request project record) = .ok () := by
  unfold reported
  cases outcome (request project record) <;> simp [Except.mapError]

theorem reported_of_error {cause : Engine.Error} (failed : outcome (request project record) = .error cause) :
    reported project outcome record = .error (.generation record.source record.literal cause) := by
  rw [reported, failed]
  rfl

theorem collected_of_ok (ok : ∀ answer ∈ answers, answer = .ok ()) : collected answers = .ok answers.length := by
  rw [collected, firstError_of_ok ok]
  rfl

theorem eq_ok_of_collected {count : Nat} (ok : collected answers = .ok count) :
    ∀ answer ∈ answers, answer = .ok () := by
  unfold collected at ok
  cases first : firstError answers with
  | ok _ => exact firstError_eq_ok first
  | error cause =>
      rw [first] at ok
      cases ok

theorem collected_append {front back : List (Except Project.Error Unit)} {cause : Project.Error}
    (ok : ∀ answer ∈ front, answer = .ok ()) : collected (front ++ .error cause :: back) = .error cause := by
  rw [collected, firstError_append ok]
  rfl

/-! ## One call after another -/

theorem generate_steps (answered : ∀ request disk, (engine request disk).1 = outcome request)
    (front back : List (Record × Call)) (record : Record) (workspace : Workspace) :
    Relation.ReflTransGen (Calls.Step project outcome) ⟨front ++ Call.first record :: back, workspace⟩
      ⟨front ++ (record, .answered (generate project engine record workspace).1) :: back,
        (generate project engine record workspace).2⟩ := by
  unfold generate ensureDirectories Call.first
  cases made : workspace.disk.ensureParent record.location.module with
  | mk result disk =>
      cases result with
      | error fault => exact .single (.blocked made)
      | ok _ =>
          refine .head (.prepare made) ?_
          dsimp only
          cases madeAlso : disk.ensureParent record.location.declaration with
          | mk result last =>
              cases result with
              | error fault => exact .single (.blocked madeAlso)
              | ok _ =>
                  refine .head (.prepare madeAlso) (.head .ask
                    (.head (.work (engine (request project record) last).2) ?_))
                  dsimp only
                  rw [answered]
                  exact .single .answer

theorem generateAll_steps (answered : ∀ request disk, (engine request disk).1 = outcome request)
    (records : List Record) (front : List (Record × Call)) (workspace : Workspace) :
    ∃ slots, Relation.ReflTransGen (Calls.Step project outcome) ⟨front ++ records.map Call.first, workspace⟩
        ⟨front ++ slots, (generateAll project engine records workspace).2⟩ ∧
      slots.map (·.2) = (generateAll project engine records workspace).1.map .answered := by
  induction records generalizing front workspace with
  | nil => exact ⟨[], .refl, rfl⟩
  | cons record rest ih =>
      have first := @generate_steps project _ _ answered front (rest.map Call.first) record workspace
      obtain ⟨slots, steps, ends⟩ :=
        ih (front ++ [(record, .answered (generate project engine record workspace).1)])
          (generate project engine record workspace).2
      rw [List.append_assoc, List.append_assoc] at steps
      refine ⟨_, first.trans steps, ?_⟩
      rw [generateAll_cons, List.singleton_append, List.map_cons, List.map_cons, ends]

/-- Making the calls one after another is one way to make them. -/
theorem generateMissing_dispatches (answered : ∀ request disk, (engine request disk).1 = outcome request)
    (records : List Record) (workspace : Workspace) :
    Dispatches project outcome records workspace (generateAll project engine (missingFrom [] records) workspace).1
        (generateMissing project engine records workspace).2 ∧
      (generateMissing project engine records workspace).1 =
        collected (generateAll project engine (missingFrom [] records) workspace).1 := by
  refine ⟨generateAll_steps answered (missingFrom [] records) [] workspace, ?_⟩
  rw [collected, length_generateAll]
  rfl

/-! ## What holds of calls in any order -/

/-- Whether the engine has received the request of a call. -/
def Call.received : Call → Bool
  | .preparing _ => false
  | .answered (.error (.io _ _)) => false
  | _ => true

theorem received_reported (project : Project) (outcome : Request → Except Engine.Error Unit) (record : Record) :
    (Call.answered (reported project outcome record)).received = true := by
  unfold reported
  cases outcome (request project record) <;> rfl

/-- What every step of the calls for some records preserves. -/
structure Calls.Sound (project : Project) (outcome : Request → Except Engine.Error Unit) (pending : List Record)
    (asked : List Request) (calls : Calls) : Prop where
  records : calls.slots.map (·.1) = pending
  answers : ∀ slot ∈ calls.slots, ∀ answer, slot.2 = .answered answer →
    (∃ path cause, answer = .error (.io path cause)) ∨ answer = reported project outcome slot.1
  requests : calls.workspace.requests.Perm
    ((calls.slots.filter (·.2.received)).map (fun slot => request project slot.1) ++ asked)

theorem Calls.sound_first (project : Project) (outcome : Request → Except Engine.Error Unit) (pending : List Record)
    (workspace : Workspace) :
    Calls.Sound project outcome pending workspace.requests ⟨pending.map Call.first, workspace⟩ where
  records := by simp [Call.first, Function.comp_def]
  answers := by
    intro slot member answer same
    obtain ⟨record, _, rfl⟩ := List.mem_map.mp member
    cases same
  requests := by
    rw [List.filter_eq_nil_iff.mpr]
    · exact .refl _
    · intro slot member
      obtain ⟨record, _, rfl⟩ := List.mem_map.mp member
      exact Bool.false_ne_true

/-- A call goes on without asking the engine. -/
theorem Calls.Sound.goes_on {front back : List (Record × Call)} {before next : Call}
    (sound : Calls.Sound project outcome pending asked ⟨front ++ (record, before) :: back, workspace⟩)
    (same : next.received = before.received) (requests : after.requests = workspace.requests)
    (answers : ∀ answer, next = .answered answer →
      (∃ path cause, answer = .error (.io path cause)) ∨ answer = reported project outcome record) :
    Calls.Sound project outcome pending asked ⟨front ++ (record, next) :: back, after⟩ where
  records := by simpa using sound.records
  answers := by
    intro slot member answer ends
    rcases List.mem_append.mp member with ahead | here
    · exact sound.answers slot (List.mem_append_left _ ahead) answer ends
    · rcases List.mem_cons.mp here with rfl | behind
      · exact answers answer ends
      · exact sound.answers slot (List.mem_append_right _ (List.mem_cons_of_mem _ behind)) answer ends
  requests := by
    have received := sound.requests
    rw [List.filter_append, List.filter_cons] at received ⊢
    rw [same, requests]
    cases known : before.received <;> simpa [known] using received

theorem Calls.Step.sound {calls next : Calls} (step : Calls.Step project outcome calls next)
    (sound : calls.Sound project outcome pending asked) : next.Sound project outcome pending asked := by
  cases step with
  | prepare => exact sound.goes_on rfl rfl nofun
  | blocked => exact sound.goes_on rfl rfl fun answer same => .inl ⟨_, _, (Call.answered.inj same).symm⟩
  | answer =>
      exact sound.goes_on (received_reported project outcome _) rfl
        fun answer same => .inr (Call.answered.inj same).symm
  | work => exact ⟨sound.records, sound.answers, sound.requests⟩
  | @ask front back record workspace =>
      refine ⟨by simpa using sound.records, fun slot member answer ends => ?_, ?_⟩
      · rcases List.mem_append.mp member with ahead | here
        · exact sound.answers slot (List.mem_append_left _ ahead) answer ends
        · rcases List.mem_cons.mp here with rfl | behind
          · cases ends
          · exact sound.answers slot (List.mem_append_right _ (List.mem_cons_of_mem _ behind)) answer ends
      · have received := sound.requests
        rw [List.filter_append, List.filter_cons_of_neg (by simp [Call.received]), List.map_append,
          List.append_assoc] at received
        rw [List.filter_append, List.filter_cons_of_pos (by simp [Call.received]), List.map_append,
          List.map_cons, List.append_assoc, List.cons_append]
        exact (received.cons _).trans List.perm_middle.symm

theorem Calls.sound_of_steps {calls ended : Calls}
    (steps : Relation.ReflTransGen (Calls.Step project outcome) calls ended)
    (sound : calls.Sound project outcome pending asked) : ended.Sound project outcome pending asked := by
  induction steps with
  | refl => exact sound
  | tail _ step ih => exact step.sound ih

/-- When all calls are answered and no directory was missing, each record has had its request and its answer. -/
theorem Dispatches.answered (dispatches : Dispatches project outcome records workspace answers after)
    (creatable : ∀ path cause, .error (.io path cause) ∉ answers) :
    answers = (missingFrom [] records).map (reported project outcome) ∧
      after.requests.Perm ((missingFrom [] records).map (request project) ++ workspace.requests) := by
  obtain ⟨slots, steps, ends⟩ := dispatches
  have sound := Calls.sound_of_steps steps (Calls.sound_first project outcome _ workspace)
  have each : ∀ slot ∈ slots, slot.2 = .answered (reported project outcome slot.1) := by
    intro slot member
    obtain ⟨answer, listed, same⟩ := List.mem_map.mp (ends ▸ List.mem_map_of_mem member)
    rcases sound.answers slot member answer same.symm with ⟨path, cause, rfl⟩ | rfl
    · exact absurd listed (creatable path cause)
    · exact same.symm
  constructor
  · have all : answers.map Call.answered =
        ((missingFrom [] records).map (reported project outcome)).map Call.answered := by
      rw [← ends, ← sound.records, List.map_map, List.map_map]
      exact List.map_congr_left each
    exact List.map_injective_iff.mpr (fun _ _ => Call.answered.inj) all
  · have all : slots.filter (·.2.received) = slots := List.filter_eq_self.mpr fun slot member => by
      rw [each slot member, received_reported]
    have requests := sound.requests
    dsimp only at requests
    rw [all] at requests
    rwa [← sound.records, List.map_map]

end Generation

open Generation in
/-- Calls that are under way together ask the engine once for each source and fingerprint whose records are not
skipped, for the literal, the module and the declaration of the first of these records and by the schema of the
project, also when some fail. They succeed with their number or fail with the first failure in the order of the
records, in whatever order they are answered. -/
theorem generate_once (project : Project) (outcome : Request → Except Engine.Error Unit) (records : List Record)
    (workspace : Workspace) :
    let ask (record : Record) : Request :=
      { source := record.source
        literal := record.literal
        schema := project.config.schema.map project.workingDir.join
        module := record.location.module
        declaration := record.location.declaration }
    (∀ engine : Engine, (∀ request disk, (engine request disk).1 = outcome request) →
      Dispatches project outcome records workspace (generateAll project engine (missingFrom [] records) workspace).1
          (generateMissing project engine records workspace).2 ∧
        (generateMissing project engine records workspace).1 =
          collected (generateAll project engine (missingFrom [] records) workspace).1) ∧
    ∀ answers after, Dispatches project outcome records workspace answers after →
      (∀ path cause, .error (.io path cause) ∉ answers) →
      ∃ pending, FirstOfEach (fun record => (record.source, record.hash)) (records.filter (!·.skip)) pending ∧
        after.requests.Perm (pending.map ask ++ workspace.requests) ∧
        (collected answers = .ok pending.length ↔ ∀ record ∈ pending, outcome (ask record) = .ok ()) ∧
        ∀ earlier record later cause, pending = earlier ++ record :: later →
          (∀ other ∈ earlier, outcome (ask other) = .ok ()) → outcome (ask record) = .error cause →
          collected answers = .error (.generation record.source record.literal cause) := by
  intro ask
  refine ⟨fun engine answered => generateMissing_dispatches answered records workspace,
    fun answers after dispatches creatable => ⟨_, firstOfEach_missing records, ?_⟩⟩
  obtain ⟨rfl, requests⟩ := dispatches.answered creatable
  refine ⟨requests, ⟨fun ok record member => ?_, fun ok => ?_⟩,
    fun earlier record later cause split ok failed => ?_⟩
  · exact reported_eq_ok.mp (eq_ok_of_collected ok _ (List.mem_map_of_mem member))
  · rw [collected_of_ok (List.forall_mem_map.mpr fun record member => reported_eq_ok.mpr (ok record member)),
      List.length_map]
  · rw [split, List.map_append, List.map_cons, reported_of_error failed]
    exact collected_append (List.forall_mem_map.mpr fun other member => reported_eq_ok.mpr (ok other member))

/-- An engine that fails for one source. -/
def partialOutcome (request : Request) : Except Engine.Error Unit :=
  if request.source = "b.ts" then .error (.other request.literal) else .ok ()

def partialEngine : Engine := fun request disk => (partialOutcome request, disk)

def partialProject : Project := ⟨⟨"/"⟩, {}, "", Syntax.parse⟩

def partialLocation (name : String) : Location :=
  ⟨"t/" ++ name ++ ".d.ts", ⟨"/t/" ++ name ++ ".d.ts"⟩, ⟨"/c/" ++ name ++ ".tsx"⟩⟩

/-- Records of which one is skipped and two have one source and fingerprint. -/
def partialRecords : List Record :=
  [⟨"a.ts", "a", "a", "1", ⟨0, 1⟩, partialLocation "a.ts-1", true⟩,
    ⟨"a.ts", "b", "b", "2", ⟨2, 3⟩, partialLocation "a.ts-2", false⟩,
    ⟨"b.ts", "c", "c", "3", ⟨0, 1⟩, partialLocation "b.ts-3", false⟩,
    ⟨"a.ts", " b", "b", "2", ⟨4, 6⟩, partialLocation "a.ts-2", false⟩,
    ⟨"b.ts", "d", "d", "4", ⟨2, 3⟩, partialLocation "b.ts-4", false⟩]

open Generation in
theorem generate_once_partial :
    let outcome := generateMissing partialProject partialEngine partialRecords ⟨⟨[]⟩, []⟩
    ∃ pending,
      FirstOfEach (fun record => (record.source, record.hash)) (partialRecords.filter (!·.skip)) pending ∧
      outcome.2.requests.Perm (pending.map fun record =>
        ⟨record.source, record.literal, [⟨"/schema.graphql"⟩], record.location.module,
          record.location.declaration⟩) ∧
      outcome.1 = .error (.generation "b.ts" "c" (.other "c")) := by
  dsimp only
  obtain ⟨once, all⟩ := generate_once partialProject partialOutcome partialRecords ⟨⟨[]⟩, []⟩
  obtain ⟨dispatches, result⟩ := once partialEngine fun _ _ => rfl
  have answers : (generateAll partialProject partialEngine (missingFrom [] partialRecords) ⟨⟨[]⟩, []⟩).1 =
      [.ok (), .error (.generation "b.ts" "c" (.other "c")), .error (.generation "b.ts" "d" (.other "d"))] := by
    decide +kernel
  obtain ⟨pending, firsts, requests, _⟩ := all _ _ dispatches (by rw [answers]; simp)
  have schema : partialProject.config.schema.map partialProject.workingDir.join = [⟨"/schema.graphql"⟩] := by decide
  rw [answers] at result
  rw [List.append_nil, schema] at requests
  exact ⟨pending, firsts, requests, result⟩

end TypedLiterals
