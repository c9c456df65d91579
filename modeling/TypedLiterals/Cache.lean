import TypedLiterals.Project
import TypedLiterals.Document.Json
import TypedLiterals.Table

/-!
The literal cache.

For each source the cache holds a partition that records, by fingerprint, the declaration generated for
a literal and the literal as it was written. It is kept in one JSON document in the cache directory. A
document that is missing or does not read as a cache counts as an empty one, so that everything is
generated anew.
-/

namespace TypedLiterals

/-- What is remembered of a literal: its declaration file and its text. -/
structure KnownLiteral where
  /-- The declaration relative to the working directory. -/
  declaration : String
  literal : String
deriving DecidableEq, Repr

/-- The entries of one source by fingerprint. -/
abbrev Partition := Table KnownLiteral

/-- The partitions of all sources by source path. -/
abbrev Cache := Table Partition

namespace Partition

/-- A partition as an object from hashes to pairs of declaration and literal. -/
def toJson (partition : Partition) : JsonValue :=
  .object (partition.entries.map fun entry =>
    (entry.1, .array [.string entry.2.declaration, .string entry.2.literal]))

/-- The entry that a pair of texts stands for. -/
def entryOfJson? : JsonValue → Option KnownLiteral
  | .array [.string declaration, .string literal] => some ⟨declaration, literal⟩
  | _ => none

/-- Reads a partition back; one entry of another shape spoils it. -/
def ofJson? : JsonValue → Option Partition
  | .object members =>
    (members.mapM fun member => (entryOfJson? member.2).map (member.1, ·)).map Table.ofList
  | _ => none

end Partition

namespace Cache

def fileName : String := "literals.json"

/-- The partition of a source, empty when it has none. -/
def partition (cache : Cache) (source : String) : Partition :=
  (cache.find? source).getD .empty

/-- A cache in which a source has a partition. -/
def withPartition (cache : Cache) (source : String) : Cache :=
  cache.insert source (cache.partition source)

/-- The number of entries in all partitions. -/
def literalCount (cache : Cache) : Nat :=
  (cache.values.map Table.size).foldl (· + ·) 0

/-- The cache without the sources that have no literal left. -/
def withoutEmpty (cache : Cache) : Cache :=
  cache.filter fun entry => !entry.2.isEmpty

/-- A cache as an object from sources to partitions. -/
def toJson (cache : Cache) : JsonValue :=
  .object (cache.entries.map fun entry => (entry.1, Partition.toJson entry.2))

/-- Reads a cache back; one partition of another shape spoils it. -/
def ofJson? : JsonValue → Option Cache
  | .object members =>
    (members.mapM fun member => (Partition.ofJson? member.2).map (member.1, ·)).map Table.ofList
  | _ => none

/-- The document that a cache is kept in. Empty partitions are left out. -/
def document (cache : Cache) : String :=
  (toJson cache.withoutEmpty).pretty

/-- The cache that a document holds, if it holds one. -/
def ofDocument? (text : String) : Option Cache :=
  (JsonValue.read text).bind ofJson?

/-- Where the cache of a project is kept. -/
def path (project : Project) : Path :=
  project.cacheDir.join ⟨fileName⟩

/-- Where a new document is written before it takes the place of the old one. -/
def temporaryPath (project : Project) : Path :=
  project.cacheDir.join ⟨fileName ++ ".tmp"⟩

/-- The cache on the disk. A file that is missing or does not hold a cache counts as an empty one. -/
def load (disk : Disk) (project : Project) : Cache :=
  match disk.readText (path project) with
  | .ok text => (ofDocument? text).getD .empty
  | .error _ => .empty

/-- Keeps a cache on disk. The second component is the disk also when a step fails. -/
def save (disk : Disk) (project : Project) (cache : Cache) : Except Project.Error Unit × Disk :=
  match disk.ensureParent (path project) with
  | (.error (parent, cause), prepared) => (.error (.io parent cause), prepared)
  | (.ok _, prepared) =>
    match prepared.writeText (temporaryPath project) cache.document with
    | .error cause => (.error (.io (temporaryPath project) cause), prepared)
    | .ok written =>
      match written.rename (temporaryPath project) (path project) with
      | .error cause => (.error (.io (path project) cause), written)
      | .ok renamed => (.ok (), renamed)

end Cache

end TypedLiterals
