import QueryPlanning.Catalog.ColumnTypeJson

/-!
# Columns

A column of a table with its statistics. Statistics are exact and kept up to date for clustering
columns; for all others they are unknown, which is -1.
-/

namespace QueryPlanning

structure ColumnStats where
  nulls : Int := -1
  distinct : Int := -1
  deriving DecidableEq, Repr, Inhabited

namespace ColumnStats

/-- The statistics of a clustering column of a table without partitions. -/
def zero : ColumnStats := ⟨0, 0⟩

end ColumnStats

structure Column where
  name : String
  type : ColumnType
  position : Nat
  comment : Option String := none
  stats : ColumnStats := {}
  deriving Repr, Inhabited

namespace Column

open Json

def statsToJson (s : ColumnStats) : Json :=
  .object [("num_nulls", .int s.nulls), ("num_distinct_values", .int s.distinct)]

def readStats (j : Json) : Read ColumnStats := do
  let members ← readMembers j
  return {
    nulls := ← members.required "num_nulls" readInt64
    distinct := ← members.required "num_distinct_values" readInt64 }

def toJson (c : Column) : Json :=
  .object [("name", .text c.name), ("data_type", c.type.toJson), ("position", .nat c.position),
    ("comment", match c.comment with
      | some s => .text s
      | none => .null),
    ("stats", statsToJson c.stats)]

def read (j : Json) : Read Column := do
  let members ← readMembers j
  return {
    name := ← members.required "name" readText
    type := ← members.required "data_type" ColumnType.read
    position := ← members.required "position" readNat
    comment := ← members.optional "comment" readText
    stats := ← members.required "stats" readStats }

end Column

end QueryPlanning
