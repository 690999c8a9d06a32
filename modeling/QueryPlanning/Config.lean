import QueryPlanning.Detail
import QueryPlanning.Json.Printer
import QueryPlanning.Json.Reader
import QueryPlanning.Toml.Parser

/-!
# Configuration

The settings of the planner, read from a TOML document; environment variables override three of
them. Settings are kept as they were given. What they mean is worked out when it is asked for, so
that a configuration with a bad value can be read and is rejected by `Config.validate`.
-/

namespace QueryPlanning

structure Config where
  /-- Upper bound of a scan range, as a size; zero is no bound. -/
  maxRangeLength : String := "0"
  /-- The directory name of a null partition key. -/
  nullKey : String := "__HIVE_DEFAULT_PARTITION__"
  /-- The text of a null column in text files. -/
  nullColumn : String := "\\N"
  /-- Nodes that a query may use; zero is all of them. -/
  nodes : Nat := 0
  /-- Scanner threads of a scan; with zero the cores decide. -/
  scannerThreads : Nat := 0
  /-- Cores of a worker; without a number, as many as this machine has. -/
  cores : Option Nat := none
  hostnames : List String := []
  ipAddresses : List String := []
  detail : String := "standard"
  logLevel : String := "info"
  deriving Repr

namespace Config

/-! ## Reading -/

def readString? : Toml.Value → Option String
  | .string s => some s
  | _ => none

def readCount? : Toml.Value → Option Nat
  | .integer n => if 0 ≤ n then some n.toNat else none
  | _ => none

def readStrings? : Toml.Value → Option (List String)
  | .array items => items.mapM readString?
  | _ => none

/-- Applies one entry of a document; keys that are not settings are passed over. -/
def set? (c : Config) (key : String) (value : Toml.Value) : Option Config :=
  match key with
  | "max_scan_range_length" => do return { c with maxRangeLength := ← readString? value }
  | "null_partition_key_value" => do return { c with nullKey := ← readString? value }
  | "null_column_value" => do return { c with nullColumn := ← readString? value }
  | "num_nodes" => do return { c with nodes := ← readCount? value }
  | "num_scanner_threads" => do return { c with scannerThreads := ← readCount? value }
  | "num_cores" => do return { c with cores := some (← readCount? value) }
  | "cluster_hostnames" => do return { c with hostnames := ← readStrings? value }
  | "cluster_ip_addresses" => do return { c with ipAddresses := ← readStrings? value }
  | "explain_level" => do return { c with detail := ← readString? value }
  | "log_level" => do return { c with logLevel := ← readString? value }
  | _ => some c

/-- Reads a TOML document. -/
def parse (text : String) : Except Error Config :=
  let config? := do
    let entries ← Toml.parse? text
    entries.foldlM (fun c (key, value) ↦ c.set? key value) {}
  match config? with
  | some c => .ok c
  | none => .error .unreadableConfig

/-- Reads an unsigned word of 64 bits, with or without a plus sign. -/
def natural? (s : String) : Option Nat :=
  let digits :=
    match s.toList with
    | '+' :: rest => rest
    | cs => cs
  if digits.isEmpty || !digits.all Char.isDigit then none
  else
    let n := Double.digitsValue digits
    if n ≤ Number.maxUInt64 then some n else none

/-- The environment variables that override settings. -/
def overriding : List String := ["FE_MAX_SCAN_RANGE_LENGTH", "FE_LOG_LEVEL", "FE_NUM_NODES"]

/-- Overrides settings by the variables of an environment. A number of nodes that cannot be read is
passed over. -/
def override (c : Config) (env : List (String × String)) : Config :=
  { c with
    maxRangeLength := (env.lookup "FE_MAX_SCAN_RANGE_LENGTH").getD c.maxRangeLength
    logLevel := (env.lookup "FE_LOG_LEVEL").getD c.logLevel
    nodes := ((env.lookup "FE_NUM_NODES").bind natural?).getD c.nodes }

/-! ## Meaning -/

/-- The cores of a worker, if the machine at hand has `machine` of them. -/
def coresOr (c : Config) (machine : Nat) : Nat := c.cores.getD machine

def maxRangeBytes (c : Config) : Except Error Nat :=
  match Size.parse c.maxRangeLength with
  | .ok n => .ok n
  | .error cause => .error (.invalidRangeLength c.maxRangeLength cause)

/-- Checks the length of scan ranges, the null key and the cores, in this order. -/
def validate (c : Config) : Except Error Unit := do
  let _ ← c.maxRangeBytes
  if c.nullKey.isEmpty then throw .emptyNullKey
  if c.cores = some 0 then throw .noCores

/-! ## JSON -/

open Json in
/-- Reads a configuration, in which every setting may be left out. -/
def read (j : Json) : Read Config := do
  let members ← readMembers j
  let d : Config := {}
  return {
    maxRangeLength := ← members.withDefault "max_scan_range_length" d.maxRangeLength readText
    nullKey := ← members.withDefault "null_partition_key_value" d.nullKey readText
    nullColumn := ← members.withDefault "null_column_value" d.nullColumn readText
    nodes := ← members.withDefault "num_nodes" d.nodes readNat
    scannerThreads := ← members.withDefault "num_scanner_threads" d.scannerThreads readNat
    cores := ← members.withDefault "num_cores" d.cores (fun j ↦ some <$> readNat j)
    hostnames := ← members.withDefault "cluster_hostnames" d.hostnames (readList readText)
    ipAddresses := ← members.withDefault "cluster_ip_addresses" d.ipAddresses (readList readText)
    detail := ← members.withDefault "explain_level" d.detail readText
    logLevel := ← members.withDefault "log_level" d.logLevel readText }

/-- Writes a configuration for a machine with `machine` cores. -/
def toJson (c : Config) (machine : Nat) : Json :=
  .object [("max_scan_range_length", .text c.maxRangeLength),
    ("null_partition_key_value", .text c.nullKey), ("null_column_value", .text c.nullColumn),
    ("num_nodes", .nat c.nodes), ("num_scanner_threads", .nat c.scannerThreads),
    ("num_cores", .nat (c.coresOr machine)),
    ("cluster_hostnames", .array (c.hostnames.map .text)),
    ("cluster_ip_addresses", .array (c.ipAddresses.map .text)),
    ("explain_level", .text c.detail), ("log_level", .text c.logLevel)]

end Config

/-! ## Options of a query -/

structure Options where
  /-- Upper bound of a scan range in bytes; zero is no bound. -/
  maxRangeLength : Int := 0
  /-- Zero is all nodes. -/
  nodes : Int := 0
  /-- With zero the cores decide. -/
  scannerThreads : Int := 0
  /-- Cores of a worker. -/
  cores : Int := 1
  detail : Detail := .standard
  deriving DecidableEq, Repr

namespace Options

open Number in
/-- The options that a configuration gives; numbers too large for the words of the options wrap
around. -/
def ofConfig (c : Config) (machine : Nat) : Except Error Options := do
  let maxRangeBytes ← c.maxRangeBytes
  let detail ← Detail.parse c.detail
  return {
    maxRangeLength := wrapSigned 64 maxRangeBytes
    nodes := wrapSigned 32 c.nodes
    scannerThreads := wrapSigned 32 c.scannerThreads
    cores := wrapSigned 32 (max 1 (c.coresOr machine) : Nat)
    detail }

end Options

end QueryPlanning
