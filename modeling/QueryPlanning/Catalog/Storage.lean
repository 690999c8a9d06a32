import QueryPlanning.Text.Blank

/-!
# Files, blocks and replicas

What a partition keeps in the file system: data files of some format and compression, cut into
blocks, each with copies on storage hosts. A replica names its host by position in the host
numbering of its table.
-/

namespace QueryPlanning

-- The sums of the core library, whatever else is imported.
attribute [local instance (high)] Zero.ofOfNat0

inductive FileFormat
  | text
  | lzoText
  | rcFile
  | sequenceFile
  | avro
  | parquet
  deriving DecidableEq, Repr, Inhabited

namespace FileFormat

/-- All formats in their order. -/
def all : List FileFormat := [.text, .lzoText, .rcFile, .sequenceFile, .avro, .parquet]

/-- The position in the order of formats. -/
def rank : FileFormat → Nat
  | .text => 0
  | .lzoText => 1
  | .rcFile => 2
  | .sequenceFile => 3
  | .avro => 4
  | .parquet => 5

def name : FileFormat → String
  | .text => "TEXT"
  | .lzoText => "LZO_TEXT"
  | .rcFile => "RC_FILE"
  | .sequenceFile => "SEQUENCE_FILE"
  | .avro => "AVRO"
  | .parquet => "PARQUET"

end FileFormat

inductive Compression
  | none
  | deflate
  | gzip
  | bzip2
  | snappy
  | lzo
  | lzoIndex
  deriving DecidableEq, Repr, Inhabited

/-- The compression that a file name ends in, after its last point and in any case. Only ASCII
letters change case: no other letter has one of the letters of these endings as its lower case. -/
def Compression.ofFileName (name : String) : Compression :=
  let cs := name.toList.reverse
  let ending := cs.takeWhile (· ≠ '.')
  if ending.length = cs.length then .none
  else match Text.lowerAscii (String.ofList ending.reverse) with
    | "deflate" => .deflate
    | "gz" => .gzip
    | "bz2" => .bzip2
    | "snappy" => .snappy
    | "lzo" => .lzo
    | "index" => .lzoIndex
    | _ => .none

/-- What the planner may do at a storage location. -/
inductive Access
  | none
  | readOnly
  | writeOnly
  | readWrite
  deriving DecidableEq, Repr, Inhabited

namespace Access

def writes : Access → Bool
  | .writeOnly | .readWrite => true
  | _ => false

def reads : Access → Bool
  | .readOnly | .readWrite => true
  | _ => false

end Access

/-- A host and a port on it. -/
structure Address where
  host : String
  port : Int
  deriving DecidableEq, Repr, Inhabited

namespace Address

def text (a : Address) : String := a.host ++ ":" ++ toString a.port

/-- By host, then by port. -/
def le (a b : Address) : Bool :=
  if a.host = b.host then a.port ≤ b.port else a.host ≤ b.host

end Address

structure Replica where
  /-- Position in the host numbering of the table. -/
  host : Nat
  /-- The storage layer holds this copy in memory. -/
  cached : Bool
  deriving DecidableEq, Repr, Inhabited

/-- A contiguous range of bytes of a file. -/
structure Block where
  offset : Int
  length : Int
  replicas : List Replica
  deriving DecidableEq, Repr, Inhabited

def Block.isCached (b : Block) : Bool := b.replicas.any (·.cached)

structure DataFile where
  /-- Relative to the location of the partition. -/
  name : String
  length : Int
  /-- Time of the last change, in milliseconds. -/
  modified : Int
  compression : Compression
  blocks : List Block
  deriving DecidableEq, Repr, Inhabited

namespace DataFile

/-- A file whose compression is told by its name. -/
def named (name : String) (length modified : Int) (blocks : List Block) : DataFile :=
  ⟨name, length, modified, .ofFileName name, blocks⟩

/-- The bytes of the blocks with a cached replica. -/
def cachedBytes (f : DataFile) : Int :=
  ((f.blocks.filter (·.isCached)).map (·.length)).sum

end DataFile

end QueryPlanning
