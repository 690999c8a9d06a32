import QueryPlanning.Plan.Partitioning
import QueryPlanning.Plan.Node

/-!
# Sinks

Where the rows of a fragment go: to the client, to an exchange, into the table of a join, or into
the files of a catalog table. Only the last takes memory worth an estimate, because it buffers each
partition that it writes.
-/

namespace QueryPlanning

open Number

inductive WriteOp
  | insert
  | update
  | upsert
  | delete
  deriving DecidableEq, Repr, Inhabited

def WriteOp.name : WriteOp → String
  | .insert => "INSERT INTO"
  | .update => "UPDATE"
  | .upsert => "UPSERT INTO"
  | .delete => "DELETE FROM"

/-- Writes rows into the partitions of a table. -/
structure TableSink where
  /-- The full name of the table. -/
  table : String
  op : WriteOp
  format : FileFormat
  keys : List Expr
  overwrite : Bool
  /-- The rows come in the order of the partitions, so that one is written after the other. -/
  clustered : Bool
  /-- Partitions that are written, or -1. -/
  partitions : Int := -1
  deriving Inhabited

/-- What the memory of a sink depends on. -/
structure SinkInput where
  rows : Int
  rowSize : Double
  hosts : Int

namespace TableSink

/-- A sink for a table. Files can only be added. -/
def create (t : Table) (op : WriteOp) (keys : List Expr) (overwrite clustered : Bool) :
    Except Error TableSink := do
  if op ≠ .insert then throw (.tableOperation op.name t.fullName)
  return { table := t.fullName, op, format := t.majorityFormat, keys, overwrite, clustered }

/-- Assumed where the number of partitions is unknown. -/
def assumedPartitions : Int := 10

/-- Bytes that are buffered for a partition. -/
def partitionMemory (s : TableSink) : Except Error Int :=
  match s.format with
  | .parquet => .ok (1024 * 1024 * 1024)
  | .text => .ok (100 * 1024)
  | format => .error (.sinkFormat format)

/-- The bytes of the rows on one host, of at least one row. -/
def hostBytes (i : SinkInput) : Int :=
  let rows := max (i.rows.tdiv (max i.hosts 1)) 1
  clampInt64 (Double.ofFloat (Float.ofInt rows * i.rowSize.toFloat)).ceil

/-- The bytes that the sink takes on one host: buffers for all partitions, unless the rows
themselves are known to take less. -/
def memory (s : TableSink) (i : SinkInput) : Except Error Int := do
  let partitions := if s.partitions = -1 then assumedPartitions else s.partitions
  let buffers := clampInt64 (partitions * (← s.partitionMemory))
  if i.rows = -1 ∨ i.rowSize.isBelowZero then return buffers
  return min (hostBytes i) buffers

end TableSink

inductive SinkKind
  /-- Gives the result of the query to the client. -/
  | planRoot
  /-- Sends the rows to an exchange. -/
  | stream (exchange : NodeId) (partitioning : Partitioning)
  /-- Stores the rows for a join, by the keys of its build side. -/
  | joinBuild (table : JoinTableId) (keys : List Expr)
  | table (sink : TableSink)
  deriving Inhabited

namespace SinkKind

/-- The sink of the build side of a join. -/
def ofJoin (table : JoinTableId) (join : Join) : Except Error SinkKind := do
  if !table.isValid then throw .sinkWithoutJoinTable
  return .joinBuild table (← join.buildKeys)

def memory (k : SinkKind) (i : SinkInput) : Except Error Int :=
  match k with
  | .table sink => sink.memory i
  | _ => .ok 0

end SinkKind

structure Sink where
  /-- The fragment whose rows go into the sink. -/
  fragment : FragmentId
  kind : SinkKind
  /-- Bytes on one host, or -1 until they are estimated. -/
  memory : Int := -1
  deriving Inhabited

namespace Sink

def estimate (s : Sink) (i : SinkInput) : Except Error Sink := do
  return { s with memory := ← s.kind.memory i }

def joinTable? (s : Sink) : Option JoinTableId :=
  match s.kind with
  | .joinBuild table _ => some table
  | _ => none

end Sink

end QueryPlanning
