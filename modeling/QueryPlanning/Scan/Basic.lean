import QueryPlanning.Scan.Memory
import QueryPlanning.Scan.Pruning
import QueryPlanning.Scan.Range
import QueryPlanning.Scan.Statistics

/-!
# Scans

A scan of a table as it stands in a plan: the partitions left after pruning, their ranges and
statistics, and the memory that they take. The table is the one that the catalog held when the scan
was planned.
-/

namespace QueryPlanning

structure Scan where
  table : Table
  partitions : IdSet
  predicates : List KeyPredicate
  /-- Columns that are read from the files. -/
  columns : Nat
  ranges : List ScanRange
  stats : ScanStatistics
  /-- Bytes on one host. -/
  memory : Int
  deriving Inhabited

namespace Scan

/-- Some column is a collection, so that the rows of the table do not tell how much is read. -/
def readsCollection (s : Scan) : Bool := s.table.columns.any (·.type.isComplex)

/-- The table has no count of its rows. -/
def lacksRowCount (s : Scan) : Bool := s.table.rows == -1

/-- The retained partitions of a table. -/
def partitionsOf (t : Table) (ids : IdSet) : Except Error (List Partition) :=
  ids.mapM fun id ↦
    match t.partition? id with
    | some p => .ok p
    | none => .error (.partitionVanished id t.fullName)

def load (t : Table) (columns : Nat) (ranges : List ScanRange) (stats : ScanStatistics)
    (nodes : Int) : ScanMemory.Load where
  ranges := ranges.length
  bytes := stats.bytes
  columns
  byColumn := t.majorityFormat = .parquet
  nodes

/-- A planned scan with the estimates for its node. -/
structure Planned where
  scan : Scan
  /-- Rows after the limit, or -1. -/
  rows : Int
  nodes : Int
  deriving Inhabited

/-- Plans a scan of a table. -/
def plan (o : Options) (c : Cluster) (t : Table) (predicates : List KeyPredicate)
    (columns : Nat) (limit : Int) : Numbering Planned := do
  let pruning ← t.prune predicates
  let ps ← partitionsOf t pruning.retained
  let ranges ← ScanRange.ofPartitions t o.maxRangeLength ps
  let stats := ScanStatistics.ofPartitions t ps
  let rows := limitedRows stats.rows limit
  let all ← scanNodes (← get) c rows ranges
  let nodes := if 0 < o.nodes then min all o.nodes else all
  let memory := ScanMemory.estimate o (load t columns ranges stats nodes)
  let partitions := pruning.retained
  return {
    scan := { table := t, partitions, predicates, columns, ranges, stats, memory }
    rows
    nodes }

end Scan

end QueryPlanning
