/-!
# Column types

The data types of table columns and their names. Arrays, maps and structures nest; a table cannot be
partitioned by a column of such a type, nor by timestamps and binaries.
-/

namespace QueryPlanning

inductive ColumnType
  | boolean
  | tinyInt
  | smallInt
  | int
  | bigInt
  | float
  | double
  | decimal (precision scale : UInt8)
  | timestamp
  | string
  | varchar (length : UInt32)
  | char (length : UInt32)
  | binary
  | array (item : ColumnType)
  | map (key value : ColumnType)
  | struct (fields : List (String × ColumnType))
  deriving Repr, Inhabited

namespace ColumnType

/-- A collection, whose size no statistics tell. -/
def isComplex : ColumnType → Bool
  | .array _ | .map _ _ | .struct _ => true
  | _ => false

/-- The number of bits of an integer type. -/
def integerBits? : ColumnType → Option Nat
  | .tinyInt => some 8
  | .smallInt => some 16
  | .int => some 32
  | .bigInt => some 64
  | _ => none

def isInteger (t : ColumnType) : Bool := t.integerBits?.isSome

def isPartitionable : ColumnType → Bool
  | .timestamp | .binary => false
  | t => !t.isComplex

mutual

def name : ColumnType → String
  | .boolean => "BOOLEAN"
  | .tinyInt => "TINYINT"
  | .smallInt => "SMALLINT"
  | .int => "INT"
  | .bigInt => "BIGINT"
  | .float => "FLOAT"
  | .double => "DOUBLE"
  | .decimal precision scale =>
    "DECIMAL(" ++ toString precision.toNat ++ "," ++ toString scale.toNat ++ ")"
  | .timestamp => "TIMESTAMP"
  | .string => "STRING"
  | .varchar length => "VARCHAR(" ++ toString length.toNat ++ ")"
  | .char length => "CHAR(" ++ toString length.toNat ++ ")"
  | .binary => "BINARY"
  | .array item => "ARRAY<" ++ item.name ++ ">"
  | .map key value => "MAP<" ++ key.name ++ "," ++ value.name ++ ">"
  | .struct fields => "STRUCT<" ++ ",".intercalate (fieldNames fields) ++ ">"

def fieldNames : List (String × ColumnType) → List String
  | [] => []
  | (field, type) :: rest => (field ++ ":" ++ type.name) :: fieldNames rest

end

end ColumnType

end QueryPlanning
