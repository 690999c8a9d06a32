import QueryPlanning.Catalog.StorageJson
import QueryPlanning.Catalog.Table
import QueryPlanning.Cluster
import QueryPlanning.Json.Printer
import QueryPlanning.Pieces

/-!
# Scan ranges

The blocks of the scanned files, cut into ranges of bounded length. Every range goes with the hosts
that hold a replica of its block. The blocks name these hosts by the numbering of their table, the
ranges by the numbering of the query, in which the scans of all tables share the hosts.
-/

namespace QueryPlanning

/-- A range of bytes of a data file. -/
structure ScanRange where
  file : String
  partition : PartitionId
  offset : Int
  length : Int
  fileLength : Int
  compression : Compression
  modified : Int
  /-- The replicas of its block, with hosts as the query numbers them. -/
  replicas : List Replica
  deriving DecidableEq, Repr, Inhabited

/-- Numbers hosts along the way; the numbers stay given out after an error. -/
abbrev Numbering := ExceptT Error (StateM Hosts)

namespace ScanRange

/-- A replica with its host as the query numbers it. -/
def renumber (t : Table) (r : Replica) : Numbering Replica := do
  match t.hosts.address? r.host with
  | some a =>
    let host ← modifyGetThe Hosts (·.number a)
    return { r with host }
  | none => throw (.unknownReplicaHost r.host t.fullName)

def ofPiece (p : Partition) (f : DataFile) (replicas : List Replica) (piece : Int × Int) :
    ScanRange where
  file := f.name
  partition := p.id
  offset := piece.1
  length := piece.2
  fileLength := f.length
  compression := f.compression
  modified := f.modified
  replicas

/-- The ranges of a block. One without replicas cannot be read and is left out. -/
def ofBlock (t : Table) (limit : Int) (p : Partition) (f : DataFile) (b : Block) :
    Numbering (List ScanRange) := do
  let replicas ← b.replicas.mapM (renumber t)
  if replicas.isEmpty then return []
  return (pieces limit b.offset b.length).map (ofPiece p f replicas)

def ofFile (t : Table) (limit : Int) (p : Partition) (f : DataFile) :
    Numbering (List ScanRange) := do
  return (← f.blocks.mapM (ofBlock t limit p f)).flatten

/-- The ranges of a partition; the default one has no rows to be scanned. -/
def ofPartition (t : Table) (limit : Int) (p : Partition) : Numbering (List ScanRange) := do
  if p.isDefault then throw (.defaultPartitionScanned t.fullName)
  return (← p.files.mapM (ofFile t limit p)).flatten

/-- The ranges of some partitions of a table, in the order of partitions, files and blocks. -/
def ofPartitions (t : Table) (limit : Int) (ps : List Partition) : Numbering (List ScanRange) := do
  return (← ps.mapM (ofPartition t limit)).flatten

def toJson (r : ScanRange) : Json :=
  .object [
    ("scan_range", .object [("file_name", .text r.file), ("partition_id", .int r.partition.val),
      ("offset", .int r.offset), ("length", .int r.length), ("file_length", .int r.fileLength),
      ("compression", r.compression.toJson), ("modification_time", .int r.modified)]),
    ("locations", .array (r.replicas.map Replica.toJson))]

end ScanRange

/-! ## Nodes of a scan -/

/-- How the ranges of a scan lie in the cluster. A range is local if one of its replicas is on a
host of the cluster. -/
structure Spread where
  /-- Hosts of the cluster with a replica, each once. -/
  localHosts : List Address := []
  localRanges : Nat := 0
  remoteRanges : Nat := 0
  deriving DecidableEq, Repr, Inhabited

namespace Spread

/-- Local ranges are read where they lie; the others can be read by any node of a cluster of the
given size. -/
def nodes (s : Spread) (size : Nat) : Nat :=
  min s.localRanges s.localHosts.length + min s.remoteRanges size

/-- Counts a range with replicas at some addresses. -/
def add (c : Cluster) (addresses : List Address) (s : Spread) : Spread :=
  match addresses.filter c.contains with
  | [] => { s with remoteRanges := s.remoteRanges + 1 }
  | members =>
    { s with
      localHosts := members.foldl (fun hs a ↦ if hs.contains a then hs else a :: hs) s.localHosts
      localRanges := s.localRanges + 1 }

/-- The addresses of a range's replicas. -/
def addresses (hosts : Hosts) (r : ScanRange) : Except Error (List Address) :=
  r.replicas.mapM fun replica ↦
    match hosts.address? replica.host with
    | some a => .ok a
    | none => .error (.unknownRangeHost replica.host)

/-- Counts ranges until they occupy the whole cluster. -/
def count (hosts : Hosts) (c : Cluster) : Spread → List ScanRange → Except Error Spread
  | s, [] => .ok s
  | s, r :: rest => do
    let s := s.add c (← addresses hosts r)
    if c.size ≤ s.nodes c.size then return s
    count hosts c s rest

end Spread

/-- The number of nodes that execute a scan of some ranges: at least one, and not more than the
cluster has. -/
def scanNodes (hosts : Hosts) (c : Cluster) (rows : Int) (ranges : List ScanRange) :
    Except Error Int := do
  let spread ← Spread.count hosts c {} ranges
  let nodes := min (spread.nodes c.size) c.size
  if rows = 0 ∨ nodes = 0 then return 1
  return Number.wrapSigned 32 nodes

end QueryPlanning
