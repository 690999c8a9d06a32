import QueryPlanning.Plan.Fragment

/-!
# Plan specifications

What a plan is made from: the tables that it reads, with their partitions, files and storage hosts,
the membership of the cluster, and the tree of its operators, in which exchanges mark where
fragments are cut.
-/

namespace QueryPlanning

/-! ## Tables -/

structure ReplicaSpec where
  /-- Position in the hosts of the table. -/
  host : Nat
  cached : Bool := false
  deriving DecidableEq, Repr, Inhabited

structure FileSpec where
  name : String
  length : Int
  modified : Int := 0
  /-- Without a positive size the file is one block. -/
  blockSize : Option Int := none
  /-- The replicas of every block. -/
  replicas : List ReplicaSpec := []
  deriving DecidableEq, Repr, Inhabited

structure PartitionSpec where
  values : List Literal
  location : String
  format : FileFormat
  rows : Option Int := none
  files : List FileSpec := []
  deriving Inhabited

structure ColumnSpec where
  name : String
  type : ColumnType
  deriving Inhabited

structure TableSpec where
  database : String
  name : String
  /-- The clustering columns come first. -/
  columns : List ColumnSpec
  clustering : Nat := 0
  baseDirectory : String
  rows : Option Int := none
  /-- Storage hosts; one may be listed twice. -/
  hosts : List Address := []
  /-- A table that is not partitioned has one partition without values. -/
  partitions : List PartitionSpec := []
  deriving Inhabited

/-! ## Plans -/

inductive NodeSpec
  /-- Scans a table given by its full name. -/
  | scan (table : String) (predicates : List KeyPredicate) (columns : Nat) (limit : Int)
  | join (join : Join) (probe build : NodeSpec)
  /-- Cuts a fragment. Its rows are spread by `own` while it executes, and sent as `sent` says. -/
  | exchange (sent own : Partitioning) (input : NodeSpec)
  | subplan (input evaluated : NodeSpec)
  | aggregation (aggregation : Aggregation) (input : NodeSpec)
  | select (conjuncts : List Expr) (input : NodeSpec)
  | sort (keys : SortKeys) (limit : Int) (input : NodeSpec)
  | union (inputs : List NodeSpec)
  | unnest (collection : Expr)
  | singularRow
  | emptySet
  deriving Inhabited

structure SinkSpec where
  /-- The full name of the table. -/
  table : String
  keys : List Expr := []
  overwrite : Bool := false
  clustered : Bool := false
  partitions : Option Int := none
  deriving Inhabited

structure PlanSpec where
  membership : Option Cluster.Update := none
  tables : List TableSpec := []
  /-- How the rows of the topmost fragment are spread. -/
  partitioning : Partitioning := .unpartitioned
  root : NodeSpec
  /-- The table to write to; without it the client gets the rows. -/
  sink : Option SinkSpec := none
  deriving Inhabited

end QueryPlanning
