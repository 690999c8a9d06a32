import QueryPlanning.Catalog.Table

/-!
# Listings

What the user gets to see of a table: its statistics by partition and its data files, as rows of
text under named columns.
-/

namespace QueryPlanning

-- The sums of the core library, whatever else is imported.
attribute [local instance (high)] Zero.ofOfNat0

structure Listing where
  columns : List String
  rows : List (List String)
  deriving DecidableEq, Repr, Inhabited

namespace Listing

/-- The size of the cached data, if anything is to be cached. -/
def cachedText (cached : Bool) (bytes : Int) : String :=
  if cached then Size.textOfInt bytes else "NOT CACHED"

/-- A partition's row of statistics. -/
def partitionRow (nullKey : String) (p : Partition) : List String :=
  p.values.map (·.keyText nullKey) ++
    [toString p.rows, toString p.fileCount, Size.textOfInt p.size,
      cachedText p.cached p.cachedBytes, p.format.name, p.location]

/-- The last row of the statistics of a partitioned table. -/
def totalRow (t : Table) : List String :=
  let cached := t.sorted.filter (·.cached)
  "Total" :: List.replicate (t.clustering - 1) "" ++
    [toString t.rows, toString t.files, Size.textOfInt t.bytes,
      cachedText (!cached.isEmpty) (cached.map (·.cachedBytes)).sum, "", ""]

/-- The only row of the statistics of a table that is not partitioned. -/
def tableRow (t : Table) : List String :=
  [toString t.rows, toString t.files, Size.textOfInt t.bytes,
    cachedText t.cached (t.partitions.map (·.cachedBytes)).sum, t.majorityFormat.name,
    t.baseDirectory]

/-- Rows, files, sizes and formats of a table by partition. -/
def ofStats (t : Table) : Listing where
  columns := t.clusteringColumns.map (·.name) ++
    ["#Rows", "#Files", "Size", "Bytes Cached", "Format", "Location"]
  rows :=
    if t.isPartitioned then t.sorted.map (partitionRow t.nullKey) ++ [totalRow t]
    else [tableRow t]

/-- Partitions in their order, one of each identifier. -/
def distinct : List Partition → List Partition
  | p :: q :: rest => if p.id = q.id then distinct (p :: rest) else p :: distinct (q :: rest)
  | ps => ps
termination_by ps => ps.length

/-- A path without the slashes at its end. -/
def withoutSlash (path : String) : String :=
  String.ofList (path.toList.reverse.dropWhile (· = '/')).reverse

/-- The rows of a partition's files, by name. -/
def fileRows (t : Table) (p : Partition) : List (List String) :=
  (p.files.mergeSort fun f g ↦ f.name ≤ g.name).map fun f ↦
    [withoutSlash p.location ++ "/" ++ f.name, Size.textOfInt f.length, t.directoryOf p]

/-- The files of some partitions of a table. -/
def ofPartitions (t : Table) (ps : List Partition) : Listing where
  columns := ["Path", "Size", "Partition"]
  rows := (distinct (Partition.sort ps)).flatMap (fileRows t)

/-- The files of all partitions. -/
def ofFiles (t : Table) : Listing := ofPartitions t t.sorted

/-- The files of the partitions that specifications select. -/
def ofSelectedFiles (t : Table) (specs : List (List KeyValue)) : Listing :=
  ofPartitions t (t.ofSpecs specs)

end Listing

end QueryPlanning
