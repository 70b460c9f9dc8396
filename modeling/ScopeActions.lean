import ScopeActions.Action
import ScopeActions.Assoc
import ScopeActions.Bundled
import ScopeActions.Collector
import ScopeActions.CommandLine.Arguments
import ScopeActions.CommandLine.Command
import ScopeActions.Config.Basic
import ScopeActions.Config.Filter
import ScopeActions.Config.Setting
import ScopeActions.Decimal.Binary64
import ScopeActions.Decimal.Shortest
import ScopeActions.Dispatch.Batch
import ScopeActions.Dispatch.Bucket
import ScopeActions.Dispatch.Dispatcher
import ScopeActions.Dispatch.Launch
import ScopeActions.Dispatch.Token
import ScopeActions.Dispatch.Trace
import ScopeActions.Document
import ScopeActions.Documents
import ScopeActions.Files
import ScopeActions.Grammar.Codec
import ScopeActions.Grammar.Liveness
import ScopeActions.Grammar.Loaded
import ScopeActions.Grammar.Prune
import ScopeActions.Grammar.Rule
import ScopeActions.Grammar.Summary
import ScopeActions.Json.Number
import ScopeActions.Json.Parser
import ScopeActions.Json.Printer
import ScopeActions.Json.Value
import ScopeActions.Libraries
import ScopeActions.Main
import ScopeActions.Path
import ScopeActions.Proofs.Grammar.Again
import ScopeActions.Proofs.Grammar.Dangling
import ScopeActions.Proofs.Grammar.Deletion
import ScopeActions.Proofs.Grammar.Distinct
import ScopeActions.Proofs.Grammar.Drain
import ScopeActions.Proofs.Grammar.Exact
import ScopeActions.Proofs.Grammar.History
import ScopeActions.Proofs.Grammar.Inquiry
import ScopeActions.Proofs.Grammar.Justified
import ScopeActions.Proofs.Grammar.Labels
import ScopeActions.Proofs.Grammar.Leave
import ScopeActions.Proofs.Grammar.Live
import ScopeActions.Proofs.Grammar.Liveness
import ScopeActions.Proofs.Grammar.Pass
import ScopeActions.Proofs.Grammar.Reachable
import ScopeActions.Proofs.Grammar.Rewalk
import ScopeActions.Proofs.Grammar.Rule
import ScopeActions.Proofs.Grammar.Steps
import ScopeActions.Proofs.Grammar.Thin
import ScopeActions.Proofs.Grammar.Walk
import ScopeActions.Proofs.Registry.Log
import ScopeActions.Proofs.Registry.Scope
import ScopeActions.Proofs.Registry.Trie
import ScopeActions.Proofs.Session.Prune
import ScopeActions.Regex.Basic
import ScopeActions.Regex.Class
import ScopeActions.Regex.Match
import ScopeActions.Regex.Parser
import ScopeActions.Registry
import ScopeActions.Replay
import ScopeActions.Scope
import ScopeActions.ScopeSet
import ScopeActions.Script
import ScopeActions.Session
import ScopeActions.Sorted
import ScopeActions.Store
import ScopeActions.Task
import ScopeActions.TaskPool
import ScopeActions.Text.Blank
import ScopeActions.Text.Digit
import ScopeActions.Text.Extender
import ScopeActions.Text.Fold
import ScopeActions.Text.Printable
import ScopeActions.Text.Quoted
import ScopeActions.Text.Ranges
import ScopeActions.Text.Slice
import ScopeActions.Text.Split
import ScopeActions.Text.Word
import ScopeActions.Toml.Draft
import ScopeActions.Toml.Parser
import ScopeActions.Toml.Scalar
import ScopeActions.Toml.Text
import ScopeActions.Toml.Value
import ScopeActions.World
import ScopeActions.Proofs.Task.Interleaving
import ScopeActions.Proofs.Task.Pool
import ScopeActions.Proofs.Dispatch.Batch
import ScopeActions.Proofs.Dispatch.Line
import ScopeActions.Proofs.Dispatch.Bucket
import ScopeActions.Proofs.Dispatch.Order
import ScopeActions.Proofs.Sorted
import ScopeActions.Proofs.Dispatch.Gather
import ScopeActions.Proofs.Dispatch.Collect
import ScopeActions.Proofs.Dispatch.Run
import ScopeActions.Proofs.Session.Trace
import ScopeActions.Proofs.Registry.Attempt
import ScopeActions.Proofs.Task.Account
import ScopeActions.Proofs.Task.Schedule
import ScopeActions.Proofs.Task.Identity
import ScopeActions.Proofs.Dispatch.Together
import ScopeActions.Proofs.Dispatch.Document
import ScopeActions.Proofs.Grammar.Termination
import ScopeActions.Proofs.Grammar.Decisions
import ScopeActions.Proofs.Grammar.Questions
import ScopeActions.Proofs.Grammar.Reached
import ScopeActions.Proofs.Grammar.Layers
import ScopeActions.Proofs.Grammar.Stages
import ScopeActions.Proofs.Dispatch.Tracing
import ScopeActions.Proofs.Json.Canonical
import ScopeActions.Proofs.Session.Replayed
import ScopeActions.Proofs.Grammar.Codec
import ScopeActions.Proofs.Grammar.Fields
import ScopeActions.Proofs.Grammar.Reports
import ScopeActions.Proofs.Grammar.Diagnostics
import ScopeActions.Proofs.Grammar.Tally
import ScopeActions.Proofs.Grammar.Frame
import ScopeActions.Proofs.Grammar.Warrant
import ScopeActions.Proofs.FirstSeen
import ScopeActions.Proofs.Dispatch.Grouping
import ScopeActions.Proofs.Registry.Ancestry
import ScopeActions.Proofs.Text.Bytes
import ScopeActions.Proofs.Text.Order
import ScopeActions.Proofs.Registry.Scan
import ScopeActions.Proofs.Dispatch.Lifecycle
import ScopeActions.Proofs.Dispatch.Filtered
import ScopeActions.Proofs.Json.Reader
import ScopeActions.Proofs.Json.Blank
import ScopeActions.Proofs.Replay.Stream
import ScopeActions.Proofs.Replay.Lineup
import ScopeActions.Proofs.Toml.Ordered
import ScopeActions.Proofs.Toml.Merge
import ScopeActions.Proofs.Path
import ScopeActions.Proofs.Text.Split
import ScopeActions.Proofs.Registry.Segments
import ScopeActions.Proofs.Text.Slice
import ScopeActions.Proofs.Dispatch.Tiling
import ScopeActions.Proofs.Grammar.Loading
import ScopeActions.Proofs.Grammar.Choice
import ScopeActions.Proofs.Grammar.Rounds
import ScopeActions.Proofs.Grammar.Scopes
import ScopeActions.Proofs.Grammar.Account
import ScopeActions.Proofs.Grammar.Agreement
