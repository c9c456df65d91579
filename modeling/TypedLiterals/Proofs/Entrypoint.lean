import TypedLiterals.Proofs.Generation.Overload
import TypedLiterals.Proofs.Syntax.Template

/-!
The combined declaration as an index of the cache.

For each function of each module it has one overload for each text in the cache, in the order of the sources and
fingerprints, and one for any other text. The texts are written between backticks as they are, and read back as
they were when each of them can stand there.
-/

namespace TypedLiterals

open Syntax (templateText IsTemplateBody templateText_eq_iff)

variable {project : Project} {cache : Cache} {function : String} {overload : Entrypoint.Overload}
  {list : List Entrypoint.Overload} {behind : List Char}

/-! ## The order of the cache -/

/-- Whether entries are those of a cache under their sources and fingerprints, in the order of these. -/
structure Cache.Lists (cache : Cache) (listed : List ((String × String) × KnownLiteral)) : Prop where
  holds : ∀ source hash known,
    ((source, hash), known) ∈ listed ↔ (cache.partition source).find? hash = some known
  ordered : listed.Pairwise fun earlier later =>
    earlier.1.1 < later.1.1 ∨ (earlier.1.1 = later.1.1 ∧ earlier.1.2 < later.1.2)

def Cache.listed (cache : Cache) : List ((String × String) × KnownLiteral) :=
  cache.entries.flatMap fun source => source.2.entries.map fun entry => ((source.1, entry.1), entry.2)

theorem Cache.lists_listed (cache : Cache) : cache.Lists cache.listed where
  holds source hash known := by
    have mem : ((source, hash), known) ∈ cache.listed ↔
        ∃ partition, cache.find? source = some partition ∧ partition.find? hash = some known := by
      simp [listed, ← Table.mem_entries]
    rw [mem, Cache.partition]
    cases cache.find? source <;> simp
  ordered := by
    refine List.pairwise_flatMap.mpr ⟨fun source _ => ?_, ?_⟩
    · refine List.pairwise_map.mpr ((List.pairwise_map.mp source.2.ordered).imp fun below => ?_)
      exact .inr ⟨rfl, below⟩
    · refine (List.pairwise_map.mp cache.ordered).imp fun below first inFirst second inSecond => ?_
      obtain ⟨_, _, rfl⟩ := List.mem_map.mp inFirst
      obtain ⟨_, _, rfl⟩ := List.mem_map.mp inSecond
      exact .inl below

namespace Entrypoint

theorem entries_eq (cache : Cache) : entries cache = cache.listed.map Prod.snd := by
  simp [entries, Cache.listed, Table.values, List.flatMap_map, List.map_flatMap, Function.comp_def]

/-! ## Reading the declaration -/

/-- Whether a text begins with some items, one behind the other, and goes on with another text. -/
inductive InTurn {α : Type} (item : α → List Char → List Char → Prop) : List α → List Char → List Char → Prop
  | nil {text : List Char} : InTurn item [] text text
  | cons {first : α} {later : List α} {text next behind : List Char} :
      item first text next → InTurn item later next behind → InTurn item (first :: later) text behind

/-- How a literal stands behind its opening backtick. -/
def Spells (literal text behind : List Char) : Prop :=
  text = literal ++ '\x60' :: behind

/-- A literal that is read from its opening backtick up to the next one that is not escaped. -/
def Reads (literal text behind : List Char) : Prop :=
  templateText text = (literal, '\x60' :: behind)

section

variable (template : List Char → List Char → List Char → Prop)

def DeclaresOverload (function : String) (overload : Overload) (text behind : List Char) : Prop :=
  ∃ rest next, text = "  export function ".toList ++ function.toList ++ "(literal: \x60".toList ++ rest ∧
    template overload.literal.toList rest next ∧
    next = "): typeof import('".toList ++ overload.specifier.toList ++ "');\n".toList ++ behind

/-- All overloads of a function and one more, which takes any text. -/
def DeclaresFunction (list : List Overload) (function : String) (text behind : List Char) : Prop :=
  ∃ next, InTurn (DeclaresOverload template function) list text next ∧
    next = "  export function ".toList ++ function.toList ++ "(literal: string): unknown;\n".toList ++ behind

def DeclaresModule (functions : List String) (list : List Overload) (module : String)
    (text behind : List Char) : Prop :=
  ∃ body next, text = "\ndeclare module '".toList ++ module.toList ++ "' \x7b\n".toList ++ body ∧
    InTurn (DeclaresFunction template list) functions body next ∧ next = "\x7d\n".toList ++ behind

/-- Whether a text declares overloads for each function of each module. -/
def Declares (literals : Config.Literals) (list : List Overload) (text : List Char) : Prop :=
  ∃ body, text = header.toList ++ body ∧
    InTurn (DeclaresModule template literals.functions list) literals.modules body []

end

variable {template : List Char → List Char → List Char → Prop}

theorem inTurn_join {α : Type} {item : α → List Char → List Char → Prop} {items : List α} {written : α → String}
    (each : ∀ element ∈ items, ∀ behind, item element ((written element).toList ++ behind) behind)
    (behind : List Char) : InTurn item items ((String.join (items.map written)).toList ++ behind) behind := by
  induction items with
  | nil => exact .nil
  | cons first later ih =>
      obtain ⟨here, others⟩ := List.forall_mem_cons.mp each
      rw [List.map_cons, String.join_cons, String.toList_append, List.append_assoc]
      exact .cons (here _) (ih others)

theorem declaresOverload
    (spelled : ∀ behind, template overload.literal.toList (overload.literal.toList ++ '\x60' :: behind) behind)
    (function : String) (behind : List Char) :
    DeclaresOverload template function overload ((overloadLine function overload).toList ++ behind) behind :=
  ⟨_, _, by simp [overloadLine], spelled _, rfl⟩

/-- The text that is rendered declares its overloads when each of them is spelled as it should be. -/
theorem declares_render (project : Project) (cache : Cache)
    (spelled : ∀ overload ∈ overloads project cache, ∀ behind,
      template overload.literal.toList (overload.literal.toList ++ '\x60' :: behind) behind) :
    Declares template project.config.literals (overloads project cache) (render project cache).toList := by
  have functions : ∀ function behind, DeclaresFunction template (overloads project cache) function
      ((functionBlock (overloads project cache) function).toList ++ behind) behind := by
    intro function behind
    refine ⟨_, ?_, rfl⟩
    have lines := inTurn_join (fun overload member => declaresOverload (spelled overload member) function)
      ((fallbackLine function).toList ++ behind)
    simpa [functionBlock, fallbackLine] using lines
  have modules : ∀ module behind, DeclaresModule template project.config.literals.functions
      (overloads project cache) module ((moduleBlock project.config.literals.functions
        (overloads project cache) module).toList ++ behind) behind := by
    intro module behind
    refine ⟨_, _, ?_, inTurn_join (fun function _ => functions function) _, rfl⟩
    simp [moduleBlock]
  refine ⟨_, ?_, inTurn_join (fun module _ => modules module) []⟩
  simp [render]

end Entrypoint

open Entrypoint (overloadOf)

/-- The combined declaration has, for each function of each module, one overload for each text in the cache, which
stands for the declaration of the first entry with this text, in the order of these entries, and one overload for
any other text. If every text in the cache can stand between backticks, each of them is read back as it is. -/
theorem render_indexes (project : Project) (cache : Cache) :
    ∃ listed firsts, cache.Lists listed ∧ FirstOfEach (·.literal) (listed.map Prod.snd) firsts ∧
      (∀ known ∈ firsts, Entrypoint.StandsFor project (overloadOf project known) known) ∧
      Entrypoint.Declares Entrypoint.Spells project.config.literals (firsts.map (overloadOf project))
        (Entrypoint.render project cache).toList ∧
      ((∀ entry ∈ listed, IsTemplateBody entry.2.literal.toList) →
        Entrypoint.Declares Entrypoint.Reads project.config.literals (firsts.map (overloadOf project))
          (Entrypoint.render project cache).toList) := by
  have firsts : FirstOfEach (·.literal) (cache.listed.map Prod.snd)
      (Entrypoint.firstOfLiterals [] (Entrypoint.entries cache)) := by
    rw [← Entrypoint.entries_eq]
    exact Entrypoint.firstOfEach_entries cache
  refine ⟨cache.listed, _, cache.lists_listed, firsts,
    fun known _ => Entrypoint.standsFor_overloadOf project known, ?_, fun bodies => ?_⟩
  · rw [← Entrypoint.overloads_eq]
    exact Entrypoint.declares_render project cache fun _ _ _ => rfl
  · rw [← Entrypoint.overloads_eq]
    refine Entrypoint.declares_render project cache fun overload member behind => ?_
    obtain ⟨known, chosen, rfl⟩ := List.mem_map.mp member
    obtain ⟨entry, inside, rfl⟩ := List.mem_map.mp (firsts.mem chosen)
    exact templateText_eq_iff.mpr ⟨bodies entry inside, rfl⟩

/-- Two sources that share a literal, and one with an escaped backtick and a dollar. -/
def escapedCache : Cache :=
  .ofList [("a.ts", .ofList [("1", ⟨"t/a.ts-1.d.ts", "{ a }"⟩), ("2", ⟨"t/a.ts-2.d.ts", "\x5c\x60$\x5c\x5c"⟩)]),
    ("b.ts", .ofList [("1", ⟨"t/b.ts-1.d.ts", "{ a }"⟩)])]

theorem entries_escapedCache : (Entrypoint.entries escapedCache).map (·.literal) =
    ["{ a }", "\x5c\x60$\x5c\x5c", "{ a }"] := by
  decide +kernel

theorem render_indexes_escaped :
    ∃ listed firsts, escapedCache.Lists listed ∧ FirstOfEach (·.literal) (listed.map Prod.snd) firsts ∧
      (∀ entry ∈ listed, IsTemplateBody entry.2.literal.toList) ∧
      Entrypoint.Declares Entrypoint.Reads Run.smallProject.config.literals
        (firsts.map (overloadOf Run.smallProject)) (Entrypoint.render Run.smallProject escapedCache).toList := by
  obtain ⟨listed, firsts, lists, first, _, _, reads⟩ := render_indexes Run.smallProject escapedCache
  have bodies : ∀ entry ∈ listed, IsTemplateBody entry.2.literal.toList := by
    intro entry member
    have inside := Entrypoint.mem_entries ((lists.holds _ _ _).mp member)
    have literal := List.mem_map_of_mem (f := (·.literal)) inside
    rw [entries_escapedCache] at literal
    have body : ∀ text ∈ ["{ a }", "\x5c\x60$\x5c\x5c", "{ a }"],
        templateText (text.toList ++ ['\x60']) = (text.toList, ['\x60']) := by decide +kernel
    exact (templateText_eq_iff.mp (body _ literal)).1
  exact ⟨listed, firsts, lists, first, bodies, reads bodies⟩

end TypedLiterals
