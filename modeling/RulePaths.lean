import RulePaths.CommandLine.Arguments
import RulePaths.CommandLine.Grammar
import RulePaths.CommandLine.Help
import RulePaths.CommandLine.Run
import RulePaths.Config.Config
import RulePaths.Config.ConfigError
import RulePaths.Config.ConfigFile
import RulePaths.Diagnostic
import RulePaths.Engine
import RulePaths.Failure
import RulePaths.Files
import RulePaths.Formula.CoverSearch
import RulePaths.Formula.Domain
import RulePaths.Formula.Expr
import RulePaths.Formula.FormulaError
import RulePaths.Formula.Implicant
import RulePaths.Formula.MinimalCover
import RulePaths.Formula.Minimizer
import RulePaths.Formula.Parser
import RulePaths.Formula.Prime
import RulePaths.Formula.Term
import RulePaths.Formula.Token
import RulePaths.Formula.TruthTable
import RulePaths.Graph.Export
import RulePaths.Graph.ExportFormat
import RulePaths.Graph.GraphStore
import RulePaths.Graph.MemoryStore
import RulePaths.Graph.Record
import RulePaths.Graph.RecordBytes
import RulePaths.Graph.Snapshot
import RulePaths.Graph.SnapshotFormat
import RulePaths.Graph.StoreError
import RulePaths.Graph.TableStore
import RulePaths.Graph.TablesFile
import RulePaths.Graph.Unreliable
import RulePaths.Graph.Veiled
import RulePaths.Json.Printer
import RulePaths.Json.Reader
import RulePaths.Json.Value
import RulePaths.Main
import RulePaths.Path.Tokens
import RulePaths.Proofs.Cover.Bounds
import RulePaths.Proofs.Cover.Counts
import RulePaths.Proofs.Cover.Coverage
import RulePaths.Proofs.Cover.MinimalCover
import RulePaths.Proofs.Cover.Pruning
import RulePaths.Proofs.Cover.Search
import RulePaths.Proofs.Cover.Selections
import RulePaths.Proofs.Engine.Accounting
import RulePaths.Proofs.Engine.Exports
import RulePaths.Proofs.Engine.LostRaces
import RulePaths.Proofs.Engine.Races
import RulePaths.Proofs.Engine.Runs
import RulePaths.Proofs.Engine.Snapshots
import RulePaths.Proofs.Formula.Grammar
import RulePaths.Proofs.Formula.Implicants
import RulePaths.Proofs.Formula.LiteralOrder
import RulePaths.Proofs.Formula.MinimalSums
import RulePaths.Proofs.Formula.Minimization
import RulePaths.Proofs.Formula.Paths
import RulePaths.Proofs.Formula.Pieces
import RulePaths.Proofs.Formula.PrimeExpansion
import RulePaths.Proofs.Formula.PrimeMerging
import RulePaths.Proofs.Formula.PrimeTerms
import RulePaths.Proofs.Formula.Rows
import RulePaths.Proofs.Formula.Scanning
import RulePaths.Proofs.Formula.Shape
import RulePaths.Proofs.Formula.Spacing
import RulePaths.Proofs.Formula.SyntaxErrors
import RulePaths.Proofs.Formula.Terms
import RulePaths.Proofs.Formula.Words
import RulePaths.Proofs.Graph.Growth
import RulePaths.Proofs.Graph.Links
import RulePaths.Proofs.Graph.RecordBytes
import RulePaths.Proofs.Graph.RecordFormat
import RulePaths.Proofs.Graph.Reference
import RulePaths.Proofs.Graph.Renumbering
import RulePaths.Proofs.Graph.Size
import RulePaths.Proofs.Order.Ascending
import RulePaths.Proofs.Order.Tables
import RulePaths.Proofs.Path.Decoding
import RulePaths.Proofs.Path.Text
import RulePaths.Proofs.Rule.Atomicity
import RulePaths.Proofs.Rule.Compilation
import RulePaths.Proofs.Rule.Content
import RulePaths.Proofs.Rule.Export
import RulePaths.Proofs.Rule.Lockstep
import RulePaths.Proofs.Rule.Races
import RulePaths.Proofs.Rule.RuleGraph
import RulePaths.Proofs.Rule.WellFormed
import RulePaths.Proofs.Store.Agreement
import RulePaths.Proofs.Store.Backend
import RulePaths.Proofs.Store.Bare
import RulePaths.Proofs.Store.Durable
import RulePaths.Proofs.Store.Fallible
import RulePaths.Proofs.Store.Isolation
import RulePaths.Proofs.Store.Memory
import RulePaths.Proofs.Store.Reopening
import RulePaths.Proofs.Store.Representation
import RulePaths.Proofs.Store.Transactions
import RulePaths.Rule.Compile
import RulePaths.Rule.RuleDefinition
import RulePaths.Rule.RuleError
import RulePaths.Session
import RulePaths.Table
import RulePaths.Text.Blank
import RulePaths.Text.Reader
import RulePaths.Toml.DateTime
import RulePaths.Toml.Document
import RulePaths.Toml.Number
import RulePaths.Toml.Quoted
import RulePaths.Toml.Scan
import RulePaths.Toml.Scope
