import TypedLiterals.Document.Json
import TypedLiterals.Generation.Report

/-!
What a plan shows for a source: the literals to generate, those the cache has, and the fingerprints to
prune.
-/

namespace TypedLiterals.CommandLine

/-- What a plan shows of a literal. -/
structure Forecast.Literal where
  hash : String
  declaration : String
deriving DecidableEq, Repr

/-- What a run would do to one source. -/
structure Forecast where
  source : String
  generate : List Forecast.Literal
  cached : List Forecast.Literal
  prune : List String
deriving DecidableEq, Repr

namespace Forecast

/-- Records as they are shown, the first one of each fingerprint. -/
def views (seen : List String) : List Record → List Forecast.Literal
  | [] => []
  | record :: rest =>
    if seen.contains record.hash then views seen rest
    else ⟨record.hash, record.location.declarationRel⟩ :: views (record.hash :: seen) rest

/-- The forecast that the outcome of a dry run gives. -/
def ofProcessed (outcome : ProcessedSource) : Forecast :=
  { source := outcome.source
    generate := views [] (outcome.records.filter (!·.skip))
    cached := views [] (outcome.records.filter (·.skip))
    prune := outcome.stale }

def literalJson (view : Forecast.Literal) : JsonValue :=
  .object [("hash", .string view.hash), ("declaration", .string view.declaration)]

/-- A forecast in machine-readable form. -/
def toJson (forecast : Forecast) : JsonValue :=
  .object [
    ("source", .string forecast.source),
    ("generate", .array (forecast.generate.map literalJson)),
    ("cached", .array (forecast.cached.map literalJson)),
    ("prune", .array (forecast.prune.map .string))]

/-- The lines for one source. -/
def lines (forecast : Forecast) : List String :=
  forecast.source ::
    (forecast.generate.map fun view => "  + " ++ view.declaration) ++
    (forecast.cached.map fun view => "  = " ++ view.declaration) ++
    forecast.prune.map fun hash => "  - " ++ hash

end Forecast

end TypedLiterals.CommandLine
