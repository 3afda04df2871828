import Deadwood.Access
import Deadwood.Arena
import Deadwood.CommandLine.Arguments
import Deadwood.CommandLine.Run
import Deadwood.Declaration
import Deadwood.Directive
import Deadwood.Document.Basic
import Deadwood.Document.Codec
import Deadwood.Fault
import Deadwood.FileTree
import Deadwood.Finding
import Deadwood.Glob
import Deadwood.Graph.Basic
import Deadwood.Graph.Edit
import Deadwood.Graph.Hierarchy
import Deadwood.Graph.Query
import Deadwood.Handle
import Deadwood.Ingest.Merge
import Deadwood.Ingest.Prepare
import Deadwood.Json.Basic
import Deadwood.Json.Printer
import Deadwood.Json.Reader
import Deadwood.Keyed
import Deadwood.Kind
import Deadwood.Location
import Deadwood.Main
import Deadwood.Pass.AssignOnly
import Deadwood.Pass.Directives
import Deadwood.Pass.Extensions
import Deadwood.Pass.Imports
import Deadwood.Pass.Outcome
import Deadwood.Pass.Overrides
import Deadwood.Pass.Parameters
import Deadwood.Pass.Protocols
import Deadwood.Pass.Reachability
import Deadwood.Pass.RedundantAccess
import Deadwood.Pass.RedundantProtocols
import Deadwood.Pass.Retention
import Deadwood.Pass.Synthesis
import Deadwood.Path
import Deadwood.Pipeline
import Deadwood.Proofs.Access.Course
import Deadwood.Proofs.Access.Signatures
import Deadwood.Proofs.Access.Verdicts
import Deadwood.Proofs.Access.Visibility
import Deadwood.Proofs.Adoption
import Deadwood.Proofs.Ancestry
import Deadwood.Proofs.DeadConformers
import Deadwood.Proofs.DeadTrees
import Deadwood.Proofs.Directives
import Deadwood.Proofs.Discovery
import Deadwood.Proofs.Dispatch.Connecting
import Deadwood.Proofs.Dispatch.Inversion
import Deadwood.Proofs.Dispatch.Override
import Deadwood.Proofs.Dispatch.Requirement
import Deadwood.Proofs.Dispatch.Rewiring
import Deadwood.Proofs.Document.Defaults
import Deadwood.Proofs.Document.Reading
import Deadwood.Proofs.Document.RoundTrip
import Deadwood.Proofs.Extensions.Cycles
import Deadwood.Proofs.Extensions.Exactness
import Deadwood.Proofs.Extensions.Faults
import Deadwood.Proofs.Extensions.Forest
import Deadwood.Proofs.Extensions.Losses
import Deadwood.Proofs.Extensions.Protocols
import Deadwood.Proofs.Extensions.Transfer
import Deadwood.Proofs.Extensions.Turn
import Deadwood.Proofs.Families
import Deadwood.Proofs.Filing
import Deadwood.Proofs.Imports
import Deadwood.Proofs.Ingest.Accounting
import Deadwood.Proofs.Ingest.Again
import Deadwood.Proofs.Ingest.Growth
import Deadwood.Proofs.Ingest.Merging
import Deadwood.Proofs.Ingest.Order
import Deadwood.Proofs.Ingest.PartialDefinitions
import Deadwood.Proofs.Ingest.Preparing
import Deadwood.Proofs.Ingest.Presence
import Deadwood.Proofs.Ingest.Schedule
import Deadwood.Proofs.Ingest.Sites
import Deadwood.Proofs.Ingest.Turns
import Deadwood.Proofs.Ingest.Union
import Deadwood.Proofs.Listing
import Deadwood.Proofs.Lookup
import Deadwood.Proofs.Nearness
import Deadwood.Proofs.Parameters
import Deadwood.Proofs.Persistence
import Deadwood.Proofs.Reachability
import Deadwood.Proofs.RedundantProtocols
import Deadwood.Proofs.Reexports
import Deadwood.Proofs.ReferenceForest
import Deadwood.Proofs.Renaming.Basic
import Deadwood.Proofs.Renaming.Edit
import Deadwood.Proofs.Renaming.Folding
import Deadwood.Proofs.Renaming.Hierarchy
import Deadwood.Proofs.Renaming.Order
import Deadwood.Proofs.Renaming.Pipeline
import Deadwood.Proofs.Renaming.Protocols
import Deadwood.Proofs.Renaming.Query
import Deadwood.Proofs.Renaming.Redundancy
import Deadwood.Proofs.Renaming.Rules
import Deadwood.Proofs.Renaming.Synthesis
import Deadwood.Proofs.Renaming.Usage
import Deadwood.Proofs.Report.Coverage
import Deadwood.Proofs.Report.Deletion
import Deadwood.Proofs.Report.Numbering
import Deadwood.Proofs.Report.Parameters
import Deadwood.Proofs.Report.Telling
import Deadwood.Proofs.Retaining.Leaner
import Deadwood.Proofs.Retaining.Parameters
import Deadwood.Proofs.Retaining.Reasons
import Deadwood.Proofs.Retaining.Roots
import Deadwood.Proofs.Retaining.Settings
import Deadwood.Proofs.Search
import Deadwood.Proofs.SortedSet
import Deadwood.Proofs.Store.Addition
import Deadwood.Proofs.Store.Consistent
import Deadwood.Proofs.Store.Felling
import Deadwood.Proofs.Store.Move
import Deadwood.Proofs.Store.Outline
import Deadwood.Proofs.Store.Query
import Deadwood.Proofs.Store.Reachable
import Deadwood.Proofs.Store.Removal
import Deadwood.Proofs.Store.View
import Deadwood.Proofs.Subtrees.Removal
import Deadwood.Proofs.Subtrees.Rooting
import Deadwood.Proofs.Subtrees.Unwinding
import Deadwood.Proofs.Superclasses
import Deadwood.Proofs.Text.Globs
import Deadwood.Proofs.Text.Grammar
import Deadwood.Proofs.Text.Patterns
import Deadwood.Proofs.Text.Pieces
import Deadwood.Proofs.Toggles
import Deadwood.Proofs.Uniqueness
import Deadwood.Proofs.WrittenOnly.Course
import Deadwood.Proofs.WrittenOnly.Elimination
import Deadwood.Reference
import Deadwood.Report.Delivery
import Deadwood.Report.Elapsed
import Deadwood.Report.Style
import Deadwood.Report.Terminal
import Deadwood.Search
import Deadwood.Settings.Basic
import Deadwood.Settings.Field
import Deadwood.Settings.Load
import Deadwood.Settings.Toml
import Deadwood.Settings.Yaml
import Deadwood.SortedMap
import Deadwood.SortedSet
import Deadwood.SourceFile
import Deadwood.Text.Blank
import Deadwood.Text.Pieces
import Deadwood.Text.Word
import Deadwood.Toml.Reader
import Deadwood.Toml.Table
import Deadwood.Toml.Value
import Deadwood.Warning
import Deadwood.Yaml.Cursor
import Deadwood.Yaml.Node
import Deadwood.Yaml.Scalar
import Deadwood.Yaml.Token
