import QueryPlanning.Catalog.Column
import QueryPlanning.Catalog.ColumnType
import QueryPlanning.Catalog.ColumnTypeJson
import QueryPlanning.Catalog.Decimal
import QueryPlanning.Catalog.Hosts
import QueryPlanning.Catalog.IdSet
import QueryPlanning.Catalog.KeyIndex
import QueryPlanning.Catalog.Listing
import QueryPlanning.Catalog.Literal
import QueryPlanning.Catalog.LiteralJson
import QueryPlanning.Catalog.Partition
import QueryPlanning.Catalog.Registry
import QueryPlanning.Catalog.Storage
import QueryPlanning.Catalog.StorageJson
import QueryPlanning.Catalog.Table
import QueryPlanning.Cluster
import QueryPlanning.CommandLine
import QueryPlanning.Config
import QueryPlanning.Detail
import QueryPlanning.Error
import QueryPlanning.Expr
import QueryPlanning.ExprJson
import QueryPlanning.Id
import QueryPlanning.Json.Basic
import QueryPlanning.Json.Parser
import QueryPlanning.Json.Printer
import QueryPlanning.Json.Reader
import QueryPlanning.Main
import QueryPlanning.Number.Double
import QueryPlanning.Number.Rounding
import QueryPlanning.Number.Shortest
import QueryPlanning.Number.Word
import QueryPlanning.Numbered
import QueryPlanning.Pieces
import QueryPlanning.Plan.Explain
import QueryPlanning.Plan.Fragment
import QueryPlanning.Plan.Node
import QueryPlanning.Plan.Partitioning
import QueryPlanning.Plan.Session
import QueryPlanning.Plan.Sink
import QueryPlanning.Plan.Split
import QueryPlanning.Plan.Summary
import QueryPlanning.Plan.Walk
import QueryPlanning.Proofs.Catalog.DecimalDoubles
import QueryPlanning.Proofs.Catalog.DecimalOrder
import QueryPlanning.Proofs.Catalog.DirectoryLookup
import QueryPlanning.Proofs.Catalog.HostNumbering
import QueryPlanning.Proofs.Catalog.IndexConsistency
import QueryPlanning.Proofs.Catalog.JsonRoundTrips
import QueryPlanning.Proofs.Catalog.KeyColumns
import QueryPlanning.Proofs.Catalog.KeyLookup
import QueryPlanning.Proofs.Catalog.KeyNumerals
import QueryPlanning.Proofs.Catalog.KeyTexts
import QueryPlanning.Proofs.Catalog.LiteralOrder
import QueryPlanning.Proofs.Catalog.PartitionIds
import QueryPlanning.Proofs.Catalog.PartitionOrder
import QueryPlanning.Proofs.Catalog.Replacement
import QueryPlanning.Proofs.Catalog.Rescaling
import QueryPlanning.Proofs.Catalog.SpecLookup
import QueryPlanning.Proofs.Catalog.StoredDecimals
import QueryPlanning.Proofs.Catalog.TableChanges
import QueryPlanning.Proofs.Catalog.TableListings
import QueryPlanning.Proofs.Json.Readability
import QueryPlanning.Proofs.Json.Reading
import QueryPlanning.Proofs.Number.FloatArithmetic
import QueryPlanning.Proofs.Outcome
import QueryPlanning.Proofs.Plan.Assembly
import QueryPlanning.Proofs.Plan.Coherence
import QueryPlanning.Proofs.Plan.Cohorts
import QueryPlanning.Proofs.Plan.Dependencies
import QueryPlanning.Proofs.Plan.ExplainedNodes
import QueryPlanning.Proofs.Plan.Extraction
import QueryPlanning.Proofs.Plan.FragmentTree
import QueryPlanning.Proofs.Plan.JsonRoundTrips
import QueryPlanning.Proofs.Plan.Locality
import QueryPlanning.Proofs.Plan.NodeTree
import QueryPlanning.Proofs.Plan.OwnNodes
import QueryPlanning.Proofs.Plan.ParallelPlans
import QueryPlanning.Proofs.Plan.Positions
import QueryPlanning.Proofs.Plan.Progress
import QueryPlanning.Proofs.Plan.Recut
import QueryPlanning.Proofs.Plan.Rehoming
import QueryPlanning.Proofs.Plan.Schedule
import QueryPlanning.Proofs.Plan.SinkEstimates
import QueryPlanning.Proofs.Plan.SplitFailures
import QueryPlanning.Proofs.Plan.SplitRuns
import QueryPlanning.Proofs.Plan.Splits
import QueryPlanning.Proofs.Plan.Walks
import QueryPlanning.Proofs.Scan.HistoryIndependence
import QueryPlanning.Proofs.Scan.HostEstimate
import QueryPlanning.Proofs.Scan.IterationOrder
import QueryPlanning.Proofs.Scan.MemoryBounds
import QueryPlanning.Proofs.Scan.PruningEvaluation
import QueryPlanning.Proofs.Scan.ScanEstimates
import QueryPlanning.Proofs.Scan.ScanSummaries
import QueryPlanning.Proofs.Scan.ScannedRanges
import QueryPlanning.Proofs.Scan.TiledBlocks
import QueryPlanning.Proofs.Spec.Build
import QueryPlanning.Proofs.Spec.CostedSinks
import QueryPlanning.Proofs.Spec.ExplainedPlans
import QueryPlanning.Proofs.Spec.ExtractedJoins
import QueryPlanning.Proofs.Spec.Materialization
import QueryPlanning.Proofs.Spec.PlanEstimates
import QueryPlanning.Proofs.Spec.PlannedSessions
import QueryPlanning.Proofs.Spec.PlanningOutcome
import QueryPlanning.Proofs.Spec.RowBounds
import QueryPlanning.Proofs.Spec.ScanRanges
import QueryPlanning.Proofs.Spec.StoredTables
import QueryPlanning.Scan.Basic
import QueryPlanning.Scan.Memory
import QueryPlanning.Scan.Predicate
import QueryPlanning.Scan.PredicateJson
import QueryPlanning.Scan.Pruning
import QueryPlanning.Scan.Range
import QueryPlanning.Scan.Statistics
import QueryPlanning.Size
import QueryPlanning.Spec.Basic
import QueryPlanning.Spec.Build
import QueryPlanning.Spec.Reader
import QueryPlanning.Text.Blank
import QueryPlanning.Text.Upper
import QueryPlanning.Toml.Basic
import QueryPlanning.Toml.Parser
import QueryPlanning.Proofs.Plan.FragmentLinks
