import TypedLiterals.Cache
import TypedLiterals.CommandLine.Arguments
import TypedLiterals.CommandLine.Clean
import TypedLiterals.CommandLine.Execution
import TypedLiterals.CommandLine.Failure
import TypedLiterals.CommandLine.Forecast
import TypedLiterals.CommandLine.Snapshot
import TypedLiterals.Config
import TypedLiterals.ConfigFile
import TypedLiterals.Dialect
import TypedLiterals.Digest.Sha256
import TypedLiterals.Discovery.Rule
import TypedLiterals.Discovery.Sources
import TypedLiterals.Discovery.Walk
import TypedLiterals.Disk.Basic
import TypedLiterals.Disk.Change
import TypedLiterals.Disk.Operations
import TypedLiterals.Disk.Walk
import TypedLiterals.Document.Json
import TypedLiterals.Document.Toml
import TypedLiterals.Edit
import TypedLiterals.Engine.Basic
import TypedLiterals.Engine.Command
import TypedLiterals.Engine.Request
import TypedLiterals.Entrypoint
import TypedLiterals.Fingerprint
import TypedLiterals.Generation.Missing
import TypedLiterals.Generation.Plan
import TypedLiterals.Generation.Report
import TypedLiterals.Generation.Run
import TypedLiterals.Glob.Match
import TypedLiterals.Glob.Pattern
import TypedLiterals.Graphql.BlockString
import TypedLiterals.Graphql.Normal
import TypedLiterals.Graphql.Token
import TypedLiterals.Location
import TypedLiterals.Main
import TypedLiterals.Path
import TypedLiterals.Project
import TypedLiterals.Proofs.Cache
import TypedLiterals.Proofs.Disk.Again
import TypedLiterals.Proofs.Disk.Basic
import TypedLiterals.Proofs.Disk.Frame
import TypedLiterals.Proofs.Disk.Operations
import TypedLiterals.Proofs.Disk.Walk
import TypedLiterals.Proofs.Document.Json
import TypedLiterals.Proofs.Generation.Again
import TypedLiterals.Proofs.Generation.Artifacts
import TypedLiterals.Proofs.Generation.Failure
import TypedLiterals.Proofs.Generation.History
import TypedLiterals.Proofs.Generation.Missing
import TypedLiterals.Proofs.Generation.Run
import TypedLiterals.Proofs.Generation.Stop
import TypedLiterals.Proofs.Generation.Update
import TypedLiterals.Proofs.Generation.Writing
import TypedLiterals.Proofs.Graphql.BlockString
import TypedLiterals.Proofs.Graphql.Normal
import TypedLiterals.Proofs.Graphql.Rendering
import TypedLiterals.Proofs.Graphql.Reprint
import TypedLiterals.Proofs.Location
import TypedLiterals.Proofs.Path
import TypedLiterals.Proofs.Table
import TypedLiterals.Rewrite
import TypedLiterals.Scan
import TypedLiterals.Seed
import TypedLiterals.Shell.Run
import TypedLiterals.Shell.Script
import TypedLiterals.Syntax.Import
import TypedLiterals.Syntax.Lexeme
import TypedLiterals.Syntax.Parser
import TypedLiterals.Syntax.Tree
import TypedLiterals.Table
import TypedLiterals.Text.Bytes
import TypedLiterals.Text.Character
import TypedLiterals.Text.Span
import TypedLiterals.Text.Utf8
import TypedLiterals.Proofs.Disk.Ready
import TypedLiterals.Proofs.Generation.Effect
import TypedLiterals.Proofs.Generation.Schedule
import TypedLiterals.Proofs.Edit
import TypedLiterals.Proofs.Generation.Forecast
import TypedLiterals.Proofs.Rewrite
import TypedLiterals.Proofs.Mention
import TypedLiterals.Proofs.Generation.Reference
import TypedLiterals.Proofs.Generation.Deferred
import TypedLiterals.Proofs.Generation.OneByOne
import TypedLiterals.Proofs.Generation.Independence
import TypedLiterals.Proofs.Generation.Overload
import TypedLiterals.Proofs.Persistence
import TypedLiterals.Proofs.Recognition
import TypedLiterals.Proofs.Collision
import TypedLiterals.Proofs.Containment
import TypedLiterals.Proofs.CommandLine.Clean
import TypedLiterals.Proofs.CommandLine.Undo
import TypedLiterals.Proofs.Generation.Story
import TypedLiterals.Proofs.Edit.Batch
import TypedLiterals.Proofs.FirstOfEach
import TypedLiterals.Proofs.Rewrite.Exact
import TypedLiterals.Proofs.Generation.Dispatch
import TypedLiterals.Proofs.Graphql.Value
import TypedLiterals.Proofs.Specifier.Exact
import TypedLiterals.Proofs.Entrypoint
import TypedLiterals.Proofs.Scan
import TypedLiterals.Proofs.Generation.Mirror
import TypedLiterals.Proofs.Graphql.OrderMark
import TypedLiterals.Proofs.SourcePath
import TypedLiterals.Proofs.Scope
import TypedLiterals.Proofs.CommandLine.Foretell
import TypedLiterals.Proofs.Engine.Arguments
import TypedLiterals.Proofs.Seed
import TypedLiterals.Proofs.Graphql.Bytewise.Normal
