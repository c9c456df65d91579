import TypedLiterals.Cache
import TypedLiterals.Engine.Request
import TypedLiterals.Fingerprint

/-!
The plan for one source: what its literals are, which of them the cache has, and which cached
fingerprints it has no use for.
-/

namespace TypedLiterals

/-- One literal call of a source with all that follows from it. -/
structure Record where
  source : String
  literal : String
  normalized : String
  hash : String
  call : Span
  location : Location
  /-- Whether the cache had the fingerprint already. -/
  skip : Bool
deriving DecidableEq, Repr

/-- The records of a source in the order of its calls, and the hashes no longer in use. -/
structure Plan where
  records : List Record
  /-- Cached fingerprints that the source neither calls nor imports, in order. -/
  stale : List String
deriving DecidableEq, Repr

namespace Plan

/-- The record of one call. -/
def record (project : Project) (seed source : String) (partition : Partition)
    (occurrence : Occurrence) : Record :=
  let normalized := Graphql.normalize occurrence.literal
  let hash := fingerprintNormal seed normalized
  { source, literal := occurrence.literal, normalized, hash, call := occurrence.call
    location := project.location source hash
    skip := partition.contains hash }

/-- The fingerprints that a source calls or imports. -/
def seen (records : List Record) (scanned : SourceScan) : List String :=
  records.map (·.hash) ++ scanned.importedHashes

/-- The plan for a scanned source, against what is remembered of it. -/
def ofScan (project : Project) (seed source : String) (scanned : SourceScan)
    (partition : Partition) : Plan :=
  let records := scanned.occurrences.map (record project seed source partition)
  { records, stale := partition.keys.filter fun hash => !(seen records scanned).contains hash }

end Plan

end TypedLiterals
