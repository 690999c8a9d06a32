import QueryPlanning.Catalog.Storage
import QueryPlanning.Json.Reader

/-!
# Files and addresses in JSON

Objects with their fields in the order of the types. Names of formats, compressions and access
levels are exact.
-/

namespace QueryPlanning

open Json

namespace FileFormat

def jsonName : FileFormat → String
  | .text => "Text"
  | .lzoText => "LzoText"
  | .rcFile => "RcFile"
  | .sequenceFile => "SequenceFile"
  | .avro => "Avro"
  | .parquet => "Parquet"

def toJson (f : FileFormat) : Json := .text f.jsonName

def ofJsonName? : String → Option FileFormat
  | "Text" => some .text
  | "LzoText" => some .lzoText
  | "RcFile" => some .rcFile
  | "SequenceFile" => some .sequenceFile
  | "Avro" => some .avro
  | "Parquet" => some .parquet
  | _ => none

@[simp]
theorem ofJsonName?_jsonName (f : FileFormat) : ofJsonName? f.jsonName = some f := by
  cases f <;> rfl

end FileFormat

namespace Compression

def jsonName : Compression → String
  | .none => "None"
  | .deflate => "Deflate"
  | .gzip => "Gzip"
  | .bzip2 => "Bzip2"
  | .snappy => "Snappy"
  | .lzo => "Lzo"
  | .lzoIndex => "LzoIndex"

def toJson (c : Compression) : Json := .text c.jsonName

def ofJsonName? : String → Option Compression
  | "None" => some .none
  | "Deflate" => some .deflate
  | "Gzip" => some .gzip
  | "Bzip2" => some .bzip2
  | "Snappy" => some .snappy
  | "Lzo" => some .lzo
  | "LzoIndex" => some .lzoIndex
  | _ => Option.none

@[simp]
theorem ofJsonName?_jsonName (c : Compression) : ofJsonName? c.jsonName = some c := by
  cases c <;> rfl

end Compression

namespace Access

def jsonName : Access → String
  | .none => "None"
  | .readOnly => "ReadOnly"
  | .writeOnly => "WriteOnly"
  | .readWrite => "ReadWrite"

def toJson (a : Access) : Json := .text a.jsonName

def ofJsonName? : String → Option Access
  | "None" => some .none
  | "ReadOnly" => some .readOnly
  | "WriteOnly" => some .writeOnly
  | "ReadWrite" => some .readWrite
  | _ => Option.none

@[simp]
theorem ofJsonName?_jsonName (a : Access) : ofJsonName? a.jsonName = some a := by
  cases a <;> rfl

end Access

namespace FileFormat

def read : Json → Read FileFormat := readName ofJsonName?

end FileFormat

namespace Compression

def read : Json → Read Compression := readName ofJsonName?

end Compression

namespace Access

def read : Json → Read Access := readName ofJsonName?

end Access

namespace Address

def toJson (a : Address) : Json :=
  .object [("hostname", .text a.host), ("port", .int a.port)]

def read (j : Json) : Read Address := do
  let members ← readMembers j
  return {
    host := ← members.required "hostname" readText
    port := ← members.required "port" readInt32 }

end Address

namespace Replica

def toJson (r : Replica) : Json :=
  .object [("host_idx", .nat r.host), ("is_cached", .bool r.cached)]

def read (j : Json) : Read Replica := do
  let members ← readMembers j
  return {
    host := ← members.required "host_idx" readNat
    cached := ← members.required "is_cached" readBool }

end Replica

namespace Block

def toJson (b : Block) : Json :=
  .object [("offset", .int b.offset), ("length", .int b.length),
    ("replicas", .array (b.replicas.map Replica.toJson))]

def read (j : Json) : Read Block := do
  let members ← readMembers j
  return {
    offset := ← members.required "offset" readInt64
    length := ← members.required "length" readInt64
    replicas := ← members.required "replicas" (readList Replica.read) }

end Block

namespace DataFile

def toJson (f : DataFile) : Json :=
  .object [("file_name", .text f.name), ("file_length", .int f.length),
    ("modification_time", .int f.modified), ("compression", f.compression.toJson),
    ("blocks", .array (f.blocks.map Block.toJson))]

def read (j : Json) : Read DataFile := do
  let members ← readMembers j
  return {
    name := ← members.required "file_name" readText
    length := ← members.required "file_length" readInt64
    modified := ← members.required "modification_time" readInt64
    compression := ← members.required "compression" Compression.read
    blocks := ← members.required "blocks" (readList Block.read) }

end DataFile

end QueryPlanning
