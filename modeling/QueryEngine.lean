import QueryEngine.Binary.Arithmetic
import QueryEngine.Binary.Format
import QueryEngine.Binary.Hex
import QueryEngine.Binary.Number
import QueryEngine.Binding
import QueryEngine.Column
import QueryEngine.Column.Brief
import QueryEngine.Config.Basic
import QueryEngine.Config.Document
import QueryEngine.Cost.Basic
import QueryEngine.Cost.Policy
import QueryEngine.Crash
import QueryEngine.Decimal.Layout
import QueryEngine.Decimal.Scaled
import QueryEngine.Decimal.Shortest
import QueryEngine.Error
import QueryEngine.Execution.Cancellation
import QueryEngine.Execution.Channel
import QueryEngine.Execution.Lower
import QueryEngine.Execution.Merging
import QueryEngine.Execution.Order
import QueryEngine.Execution.Pipeline
import QueryEngine.Execution.Result
import QueryEngine.Execution.Sink
import QueryEngine.Execution.Sorting
import QueryEngine.Execution.Source
import QueryEngine.Execution.Spill
import QueryEngine.Execution.Stream
import QueryEngine.Function.Basic
import QueryEngine.Function.Distance
import QueryEngine.Function.Touchy
import QueryEngine.Hash.Bytes
import QueryEngine.Hash.WordMix
import QueryEngine.Hash.XXH64
import QueryEngine.Json.Basic
import QueryEngine.Json.Reader
import QueryEngine.Plan.Builder
import QueryEngine.Plan.Estimate
import QueryEngine.Plan.Explain
import QueryEngine.Plan.Logical
import QueryEngine.Plan.Operator
import QueryEngine.Plan.Partition
import QueryEngine.Plan.Physical
import QueryEngine.Plan.Projection
import QueryEngine.Plan.Tree
import QueryEngine.Predicate.Basic
import QueryEngine.Predicate.Like
import QueryEngine.Proofs.Aggregates
import QueryEngine.Proofs.Agreement
import QueryEngine.Proofs.Ascending
import QueryEngine.Proofs.BindingErrors
import QueryEngine.Proofs.BoundedSort
import QueryEngine.Proofs.Bundle
import QueryEngine.Proofs.Bytes
import QueryEngine.Proofs.Calls
import QueryEngine.Proofs.Cancellation
import QueryEngine.Proofs.Chains
import QueryEngine.Proofs.Channels
import QueryEngine.Proofs.Conduct
import QueryEngine.Proofs.Conforming
import QueryEngine.Proofs.Contracts
import QueryEngine.Proofs.Cursors
import QueryEngine.Proofs.DeclaredOrder
import QueryEngine.Proofs.Demand
import QueryEngine.Proofs.Dependence
import QueryEngine.Proofs.Digest
import QueryEngine.Proofs.DistinctCounts
import QueryEngine.Proofs.Effects
import QueryEngine.Proofs.Emission
import QueryEngine.Proofs.Estimates
import QueryEngine.Proofs.Firing
import QueryEngine.Proofs.Fitting
import QueryEngine.Proofs.Fixpoint
import QueryEngine.Proofs.FunctionColumns
import QueryEngine.Proofs.Gathering
import QueryEngine.Proofs.HashTables
import QueryEngine.Proofs.Honours
import QueryEngine.Proofs.IndexScan
import QueryEngine.Proofs.KeyOrder
import QueryEngine.Proofs.Lanes
import QueryEngine.Proofs.Lowering
import QueryEngine.Proofs.MatchOrders
import QueryEngine.Proofs.MemoryBudget
import QueryEngine.Proofs.Merges
import QueryEngine.Proofs.Operators
import QueryEngine.Proofs.Partitions
import QueryEngine.Proofs.Planning
import QueryEngine.Proofs.ReadOnly
import QueryEngine.Proofs.Reading
import QueryEngine.Proofs.Refusals
import QueryEngine.Proofs.Relabelling
import QueryEngine.Proofs.Replacing
import QueryEngine.Proofs.Results
import QueryEngine.Proofs.Rewriting
import QueryEngine.Proofs.Rounding
import QueryEngine.Proofs.RowCounts
import QueryEngine.Proofs.RowWrites
import QueryEngine.Proofs.Rows
import QueryEngine.Proofs.Run
import QueryEngine.Proofs.SamePlans
import QueryEngine.Proofs.Sampling
import QueryEngine.Proofs.Schema
import QueryEngine.Proofs.SelectivityBounds
import QueryEngine.Proofs.SetOperators
import QueryEngine.Proofs.Settling
import QueryEngine.Proofs.Sifting
import QueryEngine.Proofs.Simulation
import QueryEngine.Proofs.Snapshots
import QueryEngine.Proofs.Sorting
import QueryEngine.Proofs.SpillingSort
import QueryEngine.Proofs.SplitSort
import QueryEngine.Proofs.StableSort
import QueryEngine.Proofs.Storage
import QueryEngine.Proofs.Subqueries
import QueryEngine.Proofs.Tables
import QueryEngine.Proofs.Traces
import QueryEngine.Proofs.Twins
import QueryEngine.Proofs.Typing
import QueryEngine.Proofs.ValueOrder
import QueryEngine.Proofs.Views
import QueryEngine.Proofs.Wildcards
import QueryEngine.Proofs.Workers
import QueryEngine.Query.Context
import QueryEngine.Query.Engine
import QueryEngine.Query.PlanCache
import QueryEngine.Query.Planner
import QueryEngine.Query.Profile
import QueryEngine.Random.ChaCha
import QueryEngine.Rewrite.Pass
import QueryEngine.Rewrite.Rule
import QueryEngine.Selectivity
import QueryEngine.Statistics
import QueryEngine.Storage.HashIndex
import QueryEngine.Storage.Store
import QueryEngine.Storage.Table
import QueryEngine.Text.Hex
import QueryEngine.Toml.Basic
import QueryEngine.Toml.Quoted
import QueryEngine.Toml.Reader
import QueryEngine.Trait
import QueryEngine.Tuple
import QueryEngine.Value.Basic
import QueryEngine.Value.Json
import QueryEngine.Value.Key
import QueryEngine.Value.Text
