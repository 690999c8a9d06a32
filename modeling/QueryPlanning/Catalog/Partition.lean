import QueryPlanning.Catalog.Column
import QueryPlanning.Catalog.LiteralJson
import QueryPlanning.Catalog.StorageJson

/-!
# Partitions

A partition holds the rows of a table that share the values of its clustering columns, as data files
under one location. The partition numbered 0 of every table is the default partition: it holds no
rows and only tells location and format for new ones.
-/

namespace QueryPlanning

-- The sums of the core library, whatever else is imported.
attribute [local instance (high)] Zero.ofOfNat0

structure Partition where
  id : PartitionId
  /-- One value for each clustering column, in their order. -/
  values : List Literal
  location : String
  format : FileFormat
  access : Access := .readWrite
  /-- The storage layer is asked to keep the files in memory. -/
  cached : Bool := false
  /-- The number of rows, or -1. -/
  rows : Int := -1
  files : List DataFile := []
  deriving Inhabited

/-- A named key value, as in `PARTITION (year=2024, month=1)`. -/
structure KeyValue where
  name : String
  value : Literal
  deriving DecidableEq, Inhabited

namespace Partition

def defaultId : PartitionId := ⟨0⟩

def isDefault (p : Partition) : Bool := p.id = defaultId

def fileCount (p : Partition) : Int := p.files.length

/-- The bytes of all data files. -/
def size (p : Partition) : Int := (p.files.map (·.length)).sum

def cachedBytes (p : Partition) : Int := (p.files.map (·.cachedBytes)).sum

/-- The names and values of the clustering columns as a path of directories. -/
def directory (clustering : List Column) (nullKey : String) (p : Partition) : String :=
  "/".intercalate
    (List.zipWith (fun c v ↦ c.name ++ "=" ++ v.keyText nullKey) clustering p.values)

/-- The order of partitions: by key values, then by identifier. -/
def le (p q : Partition) : Bool :=
  match Literal.compareLists p.values q.values with
  | .lt => true
  | .eq => p.id.val ≤ q.id.val
  | .gt => false

def sort (ps : List Partition) : List Partition := ps.mergeSort le

/-! ## JSON -/

open Json

def toJson (p : Partition) : Json :=
  .object [("id", .int p.id.val), ("values", .array (p.values.map Literal.toJson)),
    ("location", .text p.location), ("file_format", p.format.toJson),
    ("access_level", p.access.toJson), ("is_cached", .bool p.cached), ("num_rows", .int p.rows),
    ("files", .array (p.files.map DataFile.toJson))]

def read (j : Json) : Read Partition := do
  let members ← readMembers j
  return {
    id := ⟨← members.required "id" readInt64⟩
    values := ← members.required "values" (readList Literal.read)
    location := ← members.required "location" readText
    format := ← members.required "file_format" FileFormat.read
    access := ← members.required "access_level" Access.read
    cached := ← members.required "is_cached" readBool
    rows := ← members.required "num_rows" readInt64
    files := ← members.required "files" (readList DataFile.read) }

end Partition

namespace KeyValue

open Json

def toJson (kv : KeyValue) : Json :=
  .object [("name", .text kv.name), ("value", kv.value.toJson)]

def read (j : Json) : Read KeyValue := do
  let members ← readMembers j
  return {
    name := ← members.required "name" readText
    value := ← members.required "value" Literal.read }

end KeyValue

end QueryPlanning
