import Mathlib.Data.List.Pairwise
import TypedLiterals.Proofs.Disk.Ready
import TypedLiterals.Proofs.Generation.Writing

/-!
What the tasks of a run do to a disk.

Each task has places of its own and makes directories above them. As long as it finds its own places as they
were at the beginning it answers and leaves there what it would have then, whatever other tasks have done
elsewhere. So tasks with places of their own can be done in any order.
-/

namespace TypedLiterals

open Disk (Place Node placeOf above)

/-! ## Effects -/

/-- What a task does to a disk. -/
structure Effect where
  /-- The places that no other task changes. -/
  own : List Place
  /-- The places above these. -/
  above : List Place
  /-- Whether directories are made above. -/
  makes : Bool
  /-- What stands at the places of its own when the task is done. -/
  result : Place → Option Node
  /-- The requests that it makes to the engine. -/
  asks : List Request

namespace Effect

variable {effect other : Effect} {effects others : List Effect} {nodes base : Place → Option Node}
  {workspace middle after : Workspace} {place : Place}

/-- What stands at each place when a task is done. -/
def apply (effect : Effect) (nodes : Place → Option Node) (place : Place) : Option Node :=
  if effect.makes && effect.above.contains place then some .directory
  else if effect.own.contains place then effect.result place
  else nodes place

theorem apply_eq (effect : Effect) (nodes : Place → Option Node) (place : Place) :
    effect.apply nodes place =
      if effect.makes = true ∧ place ∈ effect.above then some .directory
      else if place ∈ effect.own then effect.result place
      else nodes place := by
  simp only [apply, Bool.and_eq_true, List.contains_iff_mem]

/-- What stands at each place when tasks are done one after the other. -/
def applyAll (effects : List Effect) (nodes : Place → Option Node) : Place → Option Node :=
  effects.foldl (fun nodes effect => effect.apply nodes) nodes

/-- Whether two tasks have different places of their own, none of them above one of the other task. -/
structure Apart (effect other : Effect) : Prop where
  own : ∀ place ∈ effect.own, place ∉ other.own
  above : ∀ place ∈ effect.own, place ∉ other.above
  below : ∀ place ∈ other.own, place ∉ effect.above

theorem Apart.symm (apart : Apart effect other) : Apart other effect :=
  ⟨fun place member also => apart.own place also member, apart.below, apart.above⟩

instance : Std.Symm Apart := ⟨fun _ _ => Apart.symm⟩

theorem apply_of_mem_own (apart : Apart effect other) (member : place ∈ effect.own) :
    other.apply nodes place = nodes place := by
  rw [apply_eq, if_neg fun both => apart.above place member both.2, if_neg (apart.own place member)]

theorem apply_comm (apart : Apart effect other) (nodes : Place → Option Node) :
    effect.apply (other.apply nodes) = other.apply (effect.apply nodes) := by
  funext place
  by_cases first : place ∈ effect.own
  · rw [apply_of_mem_own apart first, apply_eq, apply_of_mem_own apart first]
    exact (apply_eq effect nodes place).symm
  · by_cases second : place ∈ other.own
    · refine (apply_of_mem_own apart.symm second).trans ?_
      rw [apply_eq, apply_eq, apply_of_mem_own apart.symm second]
    · simp only [apply_eq, if_neg first, if_neg second]
      split
      · split <;> rfl
      · rfl

theorem applyAll_perm (apart : effects.Pairwise Apart) (same : effects.Perm others)
    (nodes : Place → Option Node) : applyAll effects nodes = applyAll others nodes := by
  refine same.foldl_eq' (fun first inFirst second inSecond nodes => ?_) nodes
  by_cases equal : first = second
  · rw [equal]
  · exact apply_comm (apart.forall inSecond inFirst (Ne.symm equal)) nodes

/-- Whether a task finds its own places as they were, with at most new directories above them. -/
def Fits (effect : Effect) (base nodes : Place → Option Node) : Prop :=
  (∀ place ∈ effect.own, nodes place = base place) ∧
    ∀ place ∈ effect.above, nodes place = base place ∨ nodes place = some .directory

theorem Fits.refl (effect : Effect) (base : Place → Option Node) : effect.Fits base base :=
  ⟨fun _ _ => rfl, fun _ _ => .inl rfl⟩

theorem Fits.apply (fits : effect.Fits base nodes) (apart : Apart effect other) :
    effect.Fits base (other.apply nodes) := by
  refine ⟨fun place member => (apply_of_mem_own apart member).trans (fits.1 place member),
    fun place member => ?_⟩
  rw [Effect.apply_eq]
  split
  · exact .inr rfl
  · rw [if_neg fun own => apart.below place own member]
    exact fits.2 place member

theorem Fits.applyAll (fits : effect.Fits base nodes) (apart : ∀ other ∈ effects, Apart effect other) :
    effect.Fits base (applyAll effects nodes) := by
  induction effects generalizing nodes with
  | nil => exact fits
  | cons first rest ih =>
      exact ih (fits.apply (apart first List.mem_cons_self))
        fun other member => apart other (List.mem_cons_of_mem _ member)

/-! ## Tasks -/

/-- Whether a workspace is what tasks with these effects make of another one. -/
structure Leaves (effects : List Effect) (workspace after : Workspace) : Prop where
  nodes : after.disk.node? = applyAll effects workspace.disk.node?
  requests : after.requests.Perm (effects.flatMap (·.asks) ++ workspace.requests)

theorem Leaves.refl (workspace : Workspace) : Leaves [] workspace workspace :=
  ⟨rfl, .refl _⟩

theorem Leaves.trans (first : Leaves effects workspace middle) (second : Leaves others middle after) :
    Leaves (effects ++ others) workspace after where
  nodes := by rw [second.nodes, first.nodes, applyAll, applyAll, applyAll, List.foldl_append]
  requests := by
    rw [List.flatMap_append, List.append_assoc]
    refine second.requests.trans ((first.requests.append_left _).trans ?_)
    rw [← List.append_assoc, ← List.append_assoc]
    exact List.perm_append_comm.append_right _

theorem Leaves.perm (leaves : Leaves effects workspace after) (apart : effects.Pairwise Apart)
    (same : effects.Perm others) : Leaves others workspace after where
  nodes := leaves.nodes.trans (applyAll_perm apart same _)
  requests := leaves.requests.trans ((same.flatMap_right _).append_right _)

theorem Leaves.fits (leaves : Leaves effects workspace after) (fits : effect.Fits base workspace.disk.node?)
    (apart : ∀ other ∈ effects, Apart effect other) : effect.Fits base after.disk.node? := by
  rw [leaves.nodes]
  exact fits.applyAll apart

/-- Whether a task has an effect, and an answer, wherever it finds its own places as they were. -/
def Performs {α : Type} (effect : Effect) (base : Place → Option Node) (answer : α)
    (task : Workspace → α × Workspace) : Prop :=
  ∀ workspace, effect.Fits base workspace.disk.node? →
    (task workspace).1 = answer ∧ Leaves [effect] workspace (task workspace).2

theorem leaves_of_nodes {disk : Disk} (nodes : ∀ place, disk.node? place = effect.apply workspace.disk.node? place)
    (none : effect.asks = []) : Leaves [effect] workspace { workspace with disk } where
  nodes := funext nodes
  requests := by simp [none]

end Effect

/-! ## Generating -/

/-- Whether files can be written at paths: no link takes their places, and nothing but directories or
nothing at all is above them, none of the places themselves either. -/
structure Disk.Roomy (disk : Disk) (paths : List Path) : Prop where
  ends : ∀ path ∈ paths, Disk.Ends path
  passable : ∀ path ∈ paths, ∀ place ∈ above path, disk.node? place = none ∨ disk.node? place = some .directory
  noLink : ∀ path ∈ paths, ∀ target, disk.node? (placeOf path) ≠ some (.link target)
  apart : ∀ path ∈ paths, ∀ other ∈ paths, placeOf path ∉ above other

theorem Disk.Roomy.mono {disk : Disk} {paths fewer : List Path} (roomy : disk.Roomy paths)
    (subset : fewer ⊆ paths) : disk.Roomy fewer where
  ends := fun path member => roomy.ends path (subset member)
  passable := fun path member => roomy.passable path (subset member)
  noLink := fun path member => roomy.noLink path (subset member)
  apart := fun path member other also => roomy.apart path (subset member) other (subset also)

/-- What a disk must keep of another one for paths to be as roomy there. -/
theorem Disk.Roomy.congr {disk other : Disk} {paths : List Path} (roomy : disk.Roomy paths)
    (own : ∀ path ∈ paths, other.node? (placeOf path) = disk.node? (placeOf path))
    (higher : ∀ path ∈ paths, ∀ place ∈ above path,
      other.node? place = disk.node? place ∨ other.node? place = some .directory) : other.Roomy paths where
  ends := roomy.ends
  passable := by
    intro path member place inside
    rcases higher path member place inside with same | made
    · rw [same]
      exact roomy.passable path member place inside
    · exact .inr made
  noLink := fun path member target => by
    rw [own path member]
    exact roomy.noLink path member target
  apart := roomy.apart

theorem Disk.Roomy.ready {disk prepared : Disk} {paths : List Path} (roomy : disk.Roomy paths)
    (adds : disk.Adds prepared (paths.flatMap above)) {path : Path} (member : path ∈ paths) :
    prepared.Ready path ∧ prepared.node? (placeOf path) = disk.node? (placeOf path) := by
  have same : prepared.node? (placeOf path) = disk.node? (placeOf path) := by
    rw [adds, if_neg]
    intro inside
    obtain ⟨other, listed, higher⟩ := List.mem_flatMap.mp inside
    exact roomy.apart path member other listed higher
  refine ⟨⟨roomy.ends path member, fun place inside => ?_, fun target => ?_⟩, same⟩
  · rw [adds, if_pos (List.mem_flatMap.mpr ⟨path, member, inside⟩)]
  · rw [same]
    exact roomy.noLink path member target

namespace Generation

variable {project : Project} {engine : Engine} {base disk : Disk} {record : Record}

/-- An engine that works on the two files of a request alone. What it answers and leaves there depends on
the request and on what stands there, and it puts nothing in the place of a directory. -/
structure Local (engine : Engine) : Prop where
  elsewhere : ∀ request (disk : Disk), (∀ path ∈ [request.module, request.declaration], disk.Ready path) →
    ∀ place, place ∉ [request.module, request.declaration].map placeOf →
      (engine request disk).2.node? place = disk.node? place
  congr : ∀ request (disk other : Disk), (∀ path ∈ [request.module, request.declaration], disk.Ready path) →
    (∀ path ∈ [request.module, request.declaration], other.Ready path ∧
      other.node? (placeOf path) = disk.node? (placeOf path)) →
    (engine request other).1 = (engine request disk).1 ∧
      ∀ path ∈ [request.module, request.declaration],
        (engine request other).2.node? (placeOf path) = (engine request disk).2.node? (placeOf path)
  directories : ∀ request (disk : Disk), (∀ path ∈ [request.module, request.declaration], disk.Ready path) →
    ∀ path ∈ [request.module, request.declaration], disk.node? (placeOf path) = some .directory →
      (engine request disk).2.node? (placeOf path) = some .directory

/-- What generating for a record answers on a disk. -/
def answer (project : Project) (engine : Engine) (base : Disk) (record : Record) :
    Except Project.Error Unit :=
  (generate project engine record ⟨base, []⟩).1

/-- What generating for a record does. -/
def effect (project : Project) (engine : Engine) (base : Disk) (record : Record) : Effect where
  own := record.location.artifacts.map placeOf
  above := record.location.artifacts.flatMap above
  makes := true
  result := (generate project engine record ⟨base, []⟩).2.disk.node?
  asks := [request project record]

theorem ensureDirectories_adds (roomy : disk.Roomy record.location.artifacts) :
    ∃ prepared, ensureDirectories record disk = (.ok (), prepared) ∧
      disk.Adds prepared (record.location.artifacts.flatMap above) := by
  have module : record.location.module ∈ record.location.artifacts := List.mem_cons_self
  have declaration : record.location.declaration ∈ record.location.artifacts :=
    List.mem_cons_of_mem _ List.mem_cons_self
  obtain ⟨first, made, adds⟩ := Disk.ensureParent_adds (roomy.ends _ module) (roomy.passable _ module)
  obtain ⟨second, also, addsAlso⟩ := Disk.ensureParent_adds (roomy.ends _ declaration)
    (adds.passable (roomy.passable _ declaration))
  refine ⟨second, by simp [ensureDirectories, made, also], fun place => ?_⟩
  rw [addsAlso place, adds place]
  simp only [Location.artifacts, List.flatMap_cons, List.flatMap_nil, List.append_nil, List.mem_append]
  by_cases higher : place ∈ above record.location.declaration <;>
    by_cases alsoHigher : place ∈ above record.location.module <;> simp [higher, alsoHigher]

theorem exists_generate (project : Project) (engine : Engine) (workspace : Workspace)
    (roomy : workspace.disk.Roomy record.location.artifacts) :
    ∃ prepared, workspace.disk.Adds prepared (record.location.artifacts.flatMap above) ∧
      generate project engine record workspace =
        ((engine (request project record) prepared).1.mapError (.generation record.source record.literal),
          ⟨(engine (request project record) prepared).2, request project record :: workspace.requests⟩) := by
  obtain ⟨prepared, made, adds⟩ := ensureDirectories_adds roomy
  exact ⟨prepared, adds, by simp [generate, made]⟩

theorem generate_performs (local_ : Local engine) (roomy : base.Roomy record.location.artifacts) :
    (effect project engine base record).Performs base.node? (answer project engine base record)
      (generate project engine record) := by
  intro workspace fits
  have roomyHere : workspace.disk.Roomy record.location.artifacts :=
    roomy.congr (fun path member => fits.1 _ (List.mem_map_of_mem member))
      fun path member place inside => fits.2 place (List.mem_flatMap.mpr ⟨path, member, inside⟩)
  obtain ⟨first, adds, generated⟩ := exists_generate project engine ⟨base, []⟩ roomy
  obtain ⟨second, addsHere, generatedHere⟩ := exists_generate project engine workspace roomyHere
  have ready := fun path (member : path ∈ record.location.artifacts) => roomy.ready adds member
  have readyHere := fun path (member : path ∈ record.location.artifacts) => roomyHere.ready addsHere member
  obtain ⟨answers, results⟩ := local_.congr (request project record) first second
    (fun path member => (ready path member).1) fun path member =>
      ⟨(readyHere path member).1, (readyHere path member).2.trans
        ((fits.1 _ (List.mem_map_of_mem member)).trans (ready path member).2.symm)⟩
  refine ⟨by rw [answer, generated, generatedHere, answers], ?_, ?_⟩
  · funext place
    rw [generatedHere]
    by_cases higher : place ∈ record.location.artifacts.flatMap above
    · have apart : place ∉ record.location.artifacts.map placeOf := by
        intro own
        obtain ⟨path, member, rfl⟩ := List.mem_map.mp own
        obtain ⟨other, listed, inside⟩ := List.mem_flatMap.mp higher
        exact roomy.apart path member other listed inside
      rw [local_.elsewhere (request project record) second (fun path member => (readyHere path member).1) place apart, addsHere place,
        if_pos higher]
      simp [Effect.applyAll, Effect.apply_eq, effect, higher]
    · by_cases own : place ∈ record.location.artifacts.map placeOf
      · obtain ⟨path, member, rfl⟩ := List.mem_map.mp own
        rw [results path member]
        simp only [Effect.applyAll, Effect.apply_eq, effect, higher, own, List.foldl_cons, List.foldl_nil, and_false,
          if_false, if_true, generated]
      · rw [local_.elsewhere (request project record) second (fun path member => (readyHere path member).1) place own, addsHere place,
          if_neg higher]
        simp only [Effect.applyAll, Effect.apply_eq, effect, higher, own, List.foldl_cons, List.foldl_nil, and_false,
          if_false]
  · rw [generatedHere]
    exact .refl _

end Generation

/-- What the blank engine does where both files can be written. -/
theorem blankEngine_of_ready (request : Request) (disk : Disk)
    (ready : ∀ path ∈ [request.module, request.declaration], disk.Ready path) :
    blankEngine request disk =
      if disk.node? (placeOf request.module) = some .directory then (.error (.fault .isDirectory), disk)
      else if disk.node? (placeOf request.declaration) = some .directory then
        (.error (.fault .isDirectory), disk.put (placeOf request.module) (.file "".toUTF8))
      else (.ok (), (disk.put (placeOf request.module) (.file "".toUTF8)).put (placeOf request.declaration)
        (.file "".toUTF8)) := by
  have module := ready request.module List.mem_cons_self
  have declaration := ready request.declaration (List.mem_cons_of_mem _ List.mem_cons_self)
  unfold blankEngine Disk.writeText
  rw [module.write]
  by_cases taken : disk.node? (placeOf request.module) = some .directory
  · rw [if_pos taken, if_pos taken]
  · rw [if_neg taken, if_neg taken]
    dsimp only
    have below := module.ends.place_ne_nil
    have still : (disk.put (placeOf request.module) (.file "".toUTF8)).Ready request.declaration := by
      refine ⟨declaration.ends, fun place higher => ?_, fun target => ?_⟩
      · rw [Disk.node?_put_of_ne]
        · exact declaration.above place higher
        · rintro rfl
          exact taken (declaration.above _ higher)
      · by_cases same : placeOf request.declaration = placeOf request.module
        · rw [same, Disk.node?_put_self below]
          exact nofun
        · rw [Disk.node?_put_of_ne same]
          exact declaration.noLink target
    have kept : (disk.put (placeOf request.module) (.file "".toUTF8)).node? (placeOf request.declaration) =
        some .directory ↔ disk.node? (placeOf request.declaration) = some .directory := by
      by_cases same : placeOf request.declaration = placeOf request.module
      · rw [same, Disk.node?_put_self below]
        exact ⟨nofun, fun directory => absurd directory taken⟩
      · rw [Disk.node?_put_of_ne same]
    rw [still.write]
    by_cases also : disk.node? (placeOf request.declaration) = some .directory
    · rw [if_pos (kept.mpr also), if_pos also]
    · rw [if_neg (mt kept.mp also), if_neg also]

theorem local_blankEngine : Generation.Local blankEngine where
  elsewhere := by
    intro request disk ready place other
    simp only [List.map_cons, List.map_nil, List.mem_cons, List.not_mem_nil, or_false, not_or] at other
    rw [blankEngine_of_ready request disk ready]
    split
    · rfl
    · split
      · rw [Disk.node?_put_of_ne other.1]
      · rw [Disk.node?_put_of_ne other.2, Disk.node?_put_of_ne other.1]
  congr := by
    intro request disk other ready same
    have module := (same request.module List.mem_cons_self).2
    have declaration := (same request.declaration (List.mem_cons_of_mem _ List.mem_cons_self)).2
    rw [blankEngine_of_ready request disk ready, blankEngine_of_ready request other fun path member =>
      (same path member).1, module, declaration]
    have belowModule := (ready request.module List.mem_cons_self).ends.place_ne_nil
    have belowDeclaration :=
      (ready request.declaration (List.mem_cons_of_mem _ List.mem_cons_self)).ends.place_ne_nil
    split
    · exact ⟨rfl, fun path member => (same path member).2⟩
    · split
      · exact ⟨rfl, fun path member => Disk.node?_put_congr belowModule (same path member).2⟩
      · exact ⟨rfl, fun path member => Disk.node?_put_congr belowDeclaration
          (Disk.node?_put_congr belowModule (same path member).2)⟩
  directories := by
    intro request disk ready path member taken
    rw [blankEngine_of_ready request disk ready]
    split
    · exact taken
    · next free =>
      have declaration : path = request.declaration := by
        rcases List.mem_pair.mp member with rfl | rfl
        · exact absurd taken free
        · rfl
      subst declaration
      rw [if_pos taken, Disk.node?_put_of_ne fun same => free (by rw [← same, taken])]
      exact taken

/-! ## Taking away and writing -/

namespace Run

variable {project : Project} {options : Run.Options} {seed source : String} {scanned : SourceScan}
  {partition : Partition} {destination : Destination} {base disk : Disk} {path : Path}

/-- Takes an artifact away. -/
def free (path : Path) (workspace : Workspace) : Unit × Workspace :=
  ((), { workspace with disk := removeArtifact workspace.disk path })

/-- What taking an artifact away does. -/
def freeEffect (base : Disk) (path : Path) : Effect where
  own := [placeOf path]
  above := above path
  makes := false
  result := (removeArtifact base path).node?
  asks := []

/-- Whether no link stands on the way of an artifact, and the artifact in directories if it stands. -/
structure Removable (disk : Disk) (path : Path) : Prop where
  direct : disk.Direct path
  ready : ∀ content, disk.node? (placeOf path) = some (.file content) → disk.Ready path

theorem removeArtifact_of_fileless (direct : disk.Direct path) (fileless : disk.Fileless (placeOf path))
    (place : Place) : (removeArtifact disk path).node? place = disk.node? place := by
  rcases removeArtifact_cases disk path with same | ⟨found, _, walks, notDirectory, same⟩
  · rw [same]
  · have named : found = placeOf path := direct.place_eq walks
    rw [same]
    by_cases equal : place = found
    · have vacant : disk.node? found = none := by
        cases stands : disk.node? found with
        | none => rfl
        | some node =>
            rw [named] at stands notDirectory
            cases node with
            | file content => exact absurd stands (fileless content)
            | directory => exact absurd stands notDirectory
            | link target => exact absurd stands (direct.not_link target)
      have below : found ≠ [] := by
        rintro rfl
        rw [Disk.node?_root] at vacant
        cases vacant
      rw [equal, Disk.node?_erase_self below, vacant]
    · rw [Disk.node?_erase_of_ne equal]

theorem removeArtifact_of_ready {content : ByteArray} (ready : disk.Ready path)
    (stands : disk.node? (placeOf path) = some (.file content)) :
    removeArtifact disk path = disk.erase (placeOf path) := by
  rw [removeArtifact, ready.removeFile stands]

theorem free_performs (removable : Removable base path) :
    (freeEffect base path).Performs base.node? () (free path) := by
  intro workspace fits
  have own : workspace.disk.node? (placeOf path) = base.node? (placeOf path) :=
    fits.1 _ List.mem_cons_self
  refine ⟨rfl, Effect.leaves_of_nodes (fun place => ?_) rfl⟩
  simp only [Effect.apply_eq, freeEffect, Bool.false_eq_true, false_and, if_false, List.mem_singleton]
  by_cases file : base.Fileless (placeOf path)
  · have fileless : workspace.disk.Fileless (placeOf path) := fun content => own ▸ file content
    have direct : workspace.disk.Direct path := Disk.direct_of_way fun place member target => by
      have noLink := removable.direct.not_link_of_way member target
      rcases Disk.mem_above_or_eq member with higher | rfl
      · rcases fits.2 place higher with same | made
        · rwa [same]
        · rw [made]
          exact nofun
      · rwa [own]
    rw [removeArtifact_of_fileless direct fileless, removeArtifact_of_fileless removable.direct file]
    split
    · next same => rw [same, own]
    · rfl
  · obtain ⟨content, stands⟩ : ∃ content, base.node? (placeOf path) = some (.file content) := by
      simpa [Disk.Fileless] using file
    have ready := removable.ready content stands
    have readyHere : workspace.disk.Ready path := by
      refine ⟨ready.ends, fun place member => ?_, fun target => own ▸ ready.noLink target⟩
      rcases fits.2 place member with same | made
      · rw [same]
        exact ready.above place member
      · exact made
    rw [removeArtifact_of_ready readyHere (own.trans stands), removeArtifact_of_ready ready stands]
    split
    · next same => rw [same, Disk.node?_erase_self ready.ends.place_ne_nil, Disk.node?_erase_self
        ready.ends.place_ne_nil]
    · next different => rw [Disk.node?_erase_of_ne different]

/-- Writes a source in its new form. -/
def rewrite (project : Project) (seed : String) (destination : Destination) (source : String)
    (scanned : SourceScan) (partition : Partition) (workspace : Workspace) :
    Except Project.Error Path × Workspace :=
  let (path, disk) := writeRewritten project destination source scanned
    (Plan.ofScan project seed source scanned partition).records workspace.disk
  (path, { workspace with disk })

/-- What writing a source answers on a disk. -/
def rewriteAnswer (project : Project) (seed : String) (destination : Destination) (base : Disk)
    (source : String) (scanned : SourceScan) (partition : Partition) : Except Project.Error Path :=
  (rewrite project seed destination source scanned partition ⟨base, []⟩).1

/-- What writing a source does. -/
def rewriteEffect (project : Project) (seed : String) (destination : Destination) (base : Disk)
    (source : String) (scanned : SourceScan) (partition : Partition) : Effect where
  own := [placeOf (rewritePath project destination source)]
  above := above (rewritePath project destination source)
  makes := (newText project seed destination source scanned partition).isOk
  result := (rewrite project seed destination source scanned partition ⟨base, []⟩).2.disk.node?
  asks := []

/-- What writing a source does on a disk that is roomy for it. -/
theorem exists_rewrite {text : String}
    (new : newText project seed destination source scanned partition = .ok text) (workspace : Workspace)
    (roomy : workspace.disk.Roomy [rewritePath project destination source]) :
    ∃ prepared, workspace.disk.Adds prepared (above (rewritePath project destination source)) ∧
      rewrite project seed destination source scanned partition workspace =
        if workspace.disk.node? (placeOf (rewritePath project destination source)) = some .directory then
          (.error (.io (rewritePath project destination source) .isDirectory),
            { workspace with disk := prepared })
        else (.ok (rewritePath project destination source), { workspace with
          disk := prepared.put (placeOf (rewritePath project destination source)) (.file text.toUTF8) }) := by
  obtain ⟨parent, prepared, higher, made, adds⟩ := Disk.ensureDirectory_adds
    (roomy.ends _ List.mem_cons_self) (roomy.passable _ List.mem_cons_self)
  obtain ⟨ready, same⟩ := roomy.ready (by simpa using adds) List.mem_cons_self
  refine ⟨prepared, adds, ?_⟩
  unfold newText outputDir at new
  unfold rewrite writeRewritten Disk.writeText
  simp only [higher, Option.getD_some] at new ⊢
  simp only [new, made, ready.write, same]
  split
  · next fault => split at fault <;> simp_all
  · next fault => split at fault <;> simp_all

theorem rewrite_performs (roomy : base.Roomy [rewritePath project destination source]) :
    (rewriteEffect project seed destination base source scanned partition).Performs base.node?
      (rewriteAnswer project seed destination base source scanned partition)
      (rewrite project seed destination source scanned partition) := by
  intro workspace fits
  have own : workspace.disk.node? (placeOf (rewritePath project destination source)) =
      base.node? (placeOf (rewritePath project destination source)) := fits.1 _ List.mem_cons_self
  cases new : newText project seed destination source scanned partition with
  | error cause =>
      have still : ∀ workspace, rewrite project seed destination source scanned partition workspace =
          (.error (.rewrite source cause), workspace) := by
        intro workspace
        unfold newText outputDir at new
        simp [rewrite, writeRewritten, new]
      rw [still workspace]
      refine ⟨by rw [rewriteAnswer, still], funext fun place => ?_, .refl _⟩
      simp only [Effect.applyAll, Effect.apply_eq, rewriteEffect, still, new, List.foldl_cons, List.foldl_nil,
        Except.isOk, Except.toBool, Bool.false_eq_true, false_and, if_false, List.mem_singleton]
      split
      · next same => rw [same, own]
      · rfl
  | ok text =>
      have roomyHere : workspace.disk.Roomy [rewritePath project destination source] :=
        roomy.congr (fun path member => by rw [List.mem_singleton.mp member, own])
          fun path member place inside => fits.2 place (by rwa [List.mem_singleton.mp member] at inside)
      obtain ⟨first, adds, written⟩ := exists_rewrite new ⟨base, []⟩ roomy
      obtain ⟨second, addsHere, writtenHere⟩ := exists_rewrite new workspace roomyHere
      have apart := roomy.apart _ List.mem_cons_self _ List.mem_cons_self
      have below := (roomy.ends _ List.mem_cons_self).place_ne_nil
      have makes : (newText project seed destination source scanned partition).isOk = true := by rw [new]; rfl
      rw [own] at writtenHere
      dsimp only at written
      rw [rewriteAnswer, written, writtenHere]
      refine ⟨by split <;> rfl, funext fun place => ?_, by split <;> exact .refl _⟩
      simp only [Effect.applyAll, Effect.apply_eq, rewriteEffect, makes, written, List.foldl_cons,
        List.foldl_nil, true_and, List.mem_singleton]
      split
      · by_cases here : place = placeOf (rewritePath project destination source)
        · simp [here, addsHere _, adds _, apart, own]
        · rw [addsHere, if_neg here]
      · by_cases here : place = placeOf (rewritePath project destination source)
        · rw [here, Disk.node?_put_self below, Disk.node?_put_self below, if_neg apart, if_pos rfl]
        · rw [Disk.node?_put_of_ne here, addsHere, if_neg here]

/-! ## The end of a run -/

/-- The paths that the end of a run works on. -/
def endPaths (project : Project) (options : Run.Options) : List Path :=
  Cache.path project :: closingPaths project options

/-- What the end of a run does. -/
def endEffect (project : Project) (options : Run.Options) (cache : Cache) : Effect where
  own := (endPaths project options).map placeOf
  above := (endPaths project options).flatMap above
  makes := true
  result := fun place =>
    if place = placeOf (Cache.path project) then some (.file (Cache.document cache).toUTF8)
    else if place = placeOf (Cache.temporaryPath project) then none
    else some (.file (Entrypoint.render project cache).toUTF8)
  asks := []

/-- Whether the end of a run finds room for its files, each at a place of its own. -/
structure Closable (project : Project) (options : Run.Options) (disk : Disk) : Prop where
  roomy : disk.Roomy (endPaths project options)
  vacant : ∀ path ∈ endPaths project options, disk.node? (placeOf path) ≠ some .directory
  apart : ((endPaths project options).map placeOf).Nodup

theorem Cache.above_temporaryPath (project : Project) :
    above (Cache.temporaryPath project) = above (Cache.path project) := by
  unfold above Cache.temporaryPath Cache.path
  rw [Cache.pathNames_cacheDir_join List.mem_cons_self,
    Cache.pathNames_cacheDir_join (List.mem_cons_of_mem _ List.mem_cons_self), List.dropLast_concat,
    List.dropLast_concat]

/-- Keeping a cache replaces its document and leaves nothing beside it. -/
theorem save_nodes (project : Project) (cache : Cache)
    (roomy : disk.Roomy [Cache.path project, Cache.temporaryPath project])
    (vacant : ∀ path ∈ [Cache.path project, Cache.temporaryPath project],
      disk.node? (placeOf path) ≠ some .directory)
    (apart : placeOf (Cache.path project) ≠ placeOf (Cache.temporaryPath project)) :
    ∃ after, Cache.save disk project cache = (.ok (), after) ∧ ∀ place, after.node? place =
      if place = placeOf (Cache.path project) then some (.file (Cache.document cache).toUTF8)
      else if place = placeOf (Cache.temporaryPath project) then none
      else if place ∈ above (Cache.path project) then some .directory
      else disk.node? place := by
  have path : Cache.path project ∈ [Cache.path project, Cache.temporaryPath project] := List.mem_cons_self
  have temporary : Cache.temporaryPath project ∈ [Cache.path project, Cache.temporaryPath project] :=
    List.mem_cons_of_mem _ List.mem_cons_self
  obtain ⟨prepared, made, adds⟩ := Disk.ensureParent_adds (roomy.ends _ path) (roomy.passable _ path)
  have addsBoth : disk.Adds prepared ([Cache.path project, Cache.temporaryPath project].flatMap above) := by
    intro place
    rw [adds place]
    simp [Cache.above_temporaryPath]
  obtain ⟨readyPath, samePath⟩ := roomy.ready addsBoth path
  obtain ⟨readyTemporary, sameTemporary⟩ := roomy.ready addsBoth temporary
  generalize document : (Cache.document cache).toUTF8 = content
  have wrote : prepared.writeText (Cache.temporaryPath project) (Cache.document cache) =
      .ok (prepared.put (placeOf (Cache.temporaryPath project)) (.file content)) := by
    rw [Disk.writeText, document, readyTemporary.write, sameTemporary, if_neg (vacant _ temporary)]
  have belowPath := (roomy.ends _ path).place_ne_nil
  have belowTemporary := (roomy.ends _ temporary).place_ne_nil
  have later : ∀ {path : Path}, path ∈ [Cache.path project, Cache.temporaryPath project] →
      prepared.Ready path → Disk.Ready
        (prepared.put (placeOf (Cache.temporaryPath project)) (.file content)) path := by
    intro path member ready
    refine ⟨ready.ends, fun place inside => ?_, fun target => ?_⟩
    · rw [Disk.node?_put_of_ne]
      · exact ready.above place inside
      · rintro rfl
        exact roomy.apart _ temporary _ member inside
    · by_cases same : placeOf path = placeOf (Cache.temporaryPath project)
      · rw [same, Disk.node?_put_self belowTemporary]
        exact nofun
      · rw [Disk.node?_put_of_ne same]
        exact ready.noLink target
  have moved := (later temporary readyTemporary).rename (later path readyPath)
    (Disk.node?_put_self belowTemporary) (by
      rw [Disk.node?_put_of_ne apart, samePath]
      exact vacant _ path)
  refine ⟨((prepared.put (placeOf (Cache.temporaryPath project)) (.file content)).erase
    (placeOf (Cache.temporaryPath project))).put (placeOf (Cache.path project)) (.file content), ?_,
    fun place => ?_⟩
  · exact Cache.save_eq_ok_iff.mpr ⟨prepared, _, made, wrote, moved⟩
  by_cases atPath : place = placeOf (Cache.path project)
  · rw [if_pos atPath, atPath, Disk.node?_put_self belowPath]
  · rw [if_neg atPath, Disk.node?_put_of_ne atPath]
    by_cases atTemporary : place = placeOf (Cache.temporaryPath project)
    · rw [if_pos atTemporary, atTemporary, Disk.node?_erase_self belowTemporary]
    · rw [if_neg atTemporary, Disk.node?_erase_of_ne atTemporary, Disk.node?_put_of_ne atTemporary, adds place]

theorem entrypoint_nodes (project : Project) (cache : Cache) (roomy : disk.Roomy [project.entrypoint])
    (vacant : disk.node? (placeOf project.entrypoint) ≠ some .directory) :
    ∃ after, Entrypoint.write disk project cache = (.ok project.entrypoint, after) ∧
      ∀ place, after.node? place =
        if place = placeOf project.entrypoint then some (.file (Entrypoint.render project cache).toUTF8)
        else if place ∈ above project.entrypoint then some .directory
        else disk.node? place := by
  have member : project.entrypoint ∈ [project.entrypoint] := List.mem_cons_self
  obtain ⟨prepared, made, adds⟩ := Disk.ensureParent_adds (roomy.ends _ member) (roomy.passable _ member)
  obtain ⟨ready, same⟩ := roomy.ready (by simpa using adds) member
  generalize text : Entrypoint.render project cache = rendered
  have wrote : prepared.writeText project.entrypoint rendered =
      .ok (prepared.put (placeOf project.entrypoint) (.file rendered.toUTF8)) := by
    rw [Disk.writeText, ready.write, same, if_neg vacant]
  refine ⟨prepared.put (placeOf project.entrypoint) (.file rendered.toUTF8), ?_, fun place => ?_⟩
  · exact entrypoint_write_eq_ok_iff.mpr ⟨rfl, prepared, made, text ▸ wrote⟩
  · by_cases here : place = placeOf project.entrypoint
    · rw [if_pos here, here, Disk.node?_put_self ready.ends.place_ne_nil]
    · rw [if_neg here, Disk.node?_put_of_ne here, adds place]

/-- What the end of a run does where there is room for it. -/
theorem finish_leaves (progress : Progress) (closable : Closable project options progress.workspace.disk) :
    ∃ after, finish project options progress =
        (.ok { progress.report with
          entrypoint := if options.entrypoint then some project.entrypoint else none }, after) ∧
      Effect.Leaves [endEffect project options progress.cache] progress.workspace after := by
  obtain ⟨roomy, vacant, apart⟩ := closable
  have documents : [Cache.path project, Cache.temporaryPath project] ⊆ endPaths project options := by
    simp [endPaths, closingPaths]
  have places : placeOf (Cache.path project) ≠ placeOf (Cache.temporaryPath project) := by
    simp only [endPaths, closingPaths, List.map_cons, List.nodup_cons, List.mem_cons, not_or] at apart
    exact apart.1.1
  -- No place at the end is above another one, so it does not matter which is asked for first.
  have higher : ∀ path ∈ endPaths project options, placeOf path ∉ (endPaths project options).flatMap above := by
    intro path member inside
    obtain ⟨other, listed, inside⟩ := List.mem_flatMap.mp inside
    exact roomy.apart path member other listed inside
  cases wanted : options.entrypoint with
  | false =>
      obtain ⟨after, saved, nodes⟩ := save_nodes project progress.cache (roomy.mono documents)
        (fun path member => vacant path (documents member)) places
      refine ⟨{ progress.workspace with disk := after }, by simp [finish, wanted, saved, Except.map],
        Effect.leaves_of_nodes (fun place => ?_) rfl⟩
      have paths : endPaths project options = [Cache.path project, Cache.temporaryPath project] := by
        simp [endPaths, closingPaths, wanted]
      rw [paths] at higher
      have atPath := higher _ List.mem_cons_self
      have atTemporary := higher _ (List.mem_cons_of_mem _ List.mem_cons_self)
      simp only [Cache.above_temporaryPath, List.flatMap_cons, List.flatMap_nil, List.append_nil,
        List.mem_append, or_self] at atPath atTemporary
      simp only [nodes, Effect.apply_eq, endEffect, paths, Cache.above_temporaryPath, List.flatMap_cons,
        List.flatMap_nil, List.append_nil, List.mem_append, or_self, List.map_cons, List.map_nil,
        List.mem_cons, List.not_mem_nil, or_false, true_and]
      by_cases first : place = placeOf (Cache.path project)
      · simp [first, atPath]
      · by_cases second : place = placeOf (Cache.temporaryPath project)
        · simp [second, atTemporary, Ne.symm places]
        · simp [first, second]
  | true =>
      have paths : endPaths project options =
          [Cache.path project, Cache.temporaryPath project, project.entrypoint] := by
        simp [endPaths, closingPaths, wanted]
      have entrypoint : project.entrypoint ∈ endPaths project options := by simp [paths]
      obtain ⟨middle, wrote, nodes⟩ := entrypoint_nodes project progress.cache
        (roomy.mono (by simpa using entrypoint)) (vacant _ entrypoint)
      have different : ∀ path ∈ [Cache.path project, Cache.temporaryPath project],
          placeOf path ≠ placeOf project.entrypoint := by
        rw [paths] at apart
        simp only [List.map_cons, List.map_nil, List.nodup_cons, List.mem_cons, List.not_mem_nil, or_false,
          not_or] at apart
        simpa using And.intro apart.1.2 apart.2.1
      have own : ∀ path ∈ [Cache.path project, Cache.temporaryPath project],
          middle.node? (placeOf path) = progress.workspace.disk.node? (placeOf path) := by
        intro path member
        rw [nodes, if_neg (different path member),
          if_neg (roomy.apart path (documents member) _ entrypoint)]
      -- The entrypoint is written first; what the cache needs stands as it did, so the cache is saved as before.
      obtain ⟨after, saved, nodesAfter⟩ := save_nodes project progress.cache
        ((roomy.mono documents).congr own fun path member place inside => by
          rw [nodes, if_neg]
          · split
            · exact .inr rfl
            · exact .inl rfl
          · rintro rfl
            exact roomy.apart _ entrypoint path (documents member) inside)
        (fun path member => own path member ▸ vacant path (documents member)) places
      refine ⟨{ progress.workspace with disk := after }, by simp [finish, wanted, wrote, saved, Except.map],
        Effect.leaves_of_nodes (fun place => ?_) rfl⟩
      have atPath := higher _ (documents List.mem_cons_self)
      have atTemporary := higher _ (documents (List.mem_cons_of_mem _ List.mem_cons_self))
      have atEntrypoint := higher _ entrypoint
      have first := different _ List.mem_cons_self
      have second := different _ (List.mem_cons_of_mem _ List.mem_cons_self)
      simp only [paths, Cache.above_temporaryPath, List.flatMap_cons, List.flatMap_nil, List.append_nil,
        List.mem_append, not_or] at atPath atTemporary atEntrypoint
      simp only [nodesAfter, nodes, Effect.apply_eq, endEffect, paths, Cache.above_temporaryPath,
        List.flatMap_cons, List.flatMap_nil, List.append_nil, List.mem_append, List.map_cons, List.map_nil,
        List.mem_cons, List.not_mem_nil, or_false, true_and]
      by_cases here : place = placeOf (Cache.path project)
      · simp [here, atPath]
      · by_cases there : place = placeOf (Cache.temporaryPath project)
        · simp [there, atTemporary, Ne.symm places]
        · by_cases last : place = placeOf project.entrypoint
          · simp [last, atEntrypoint, Ne.symm first, Ne.symm second]
          · simp only [here, there, last, if_false, or_self]
            by_cases inside : place ∈ above (Cache.path project) <;>
              by_cases also : place ∈ above project.entrypoint <;> simp [inside, also]

end Run

end TypedLiterals
