import QueryPlanning.Catalog.KeyIndex

/-!
# Predicates on partition keys

A predicate tests one clustering column. `KeyTest.holds` says what a test means for a key value;
`KeyTest.matching` finds the partitions that pass it in the key index of their table.
-/

namespace QueryPlanning

inductive KeyTest
  /-- A null equals a null. -/
  | eq (value : Literal)
  | oneOf (values : List Literal)
  /-- A null lies in no range. -/
  | range (lower upper : Option RangeBound)
  | isNull
  | isNotNull
  deriving DecidableEq, Inhabited

namespace KeyTest

/-- Whether a key value passes the test. -/
def holds (v : Literal) : KeyTest → Bool
  | .eq value => v.same value
  | .oneOf values => values.any v.same
  | .range lower upper => !v.isNull && lower.all (·.isBelow v) && upper.all (·.isAbove v)
  | .isNull => v.isNull
  | .isNotNull => !v.isNull

/-- The partitions whose value in a column passes the test. -/
def matching (ix : KeyIndex) (col : Nat) : KeyTest → IdSet
  | .eq value => ix.withValue col value
  | .oneOf values => values.foldr (fun v found ↦ IdSet.union (ix.withValue col v) found) []
  | .range lower upper => ix.inRange col lower upper
  | .isNull => (ix.nulls? col).getD []
  | .isNotNull => ix.ids.filter fun id ↦ !((ix.nulls? col).getD []).contains id

/-- The test on a named column. A range without ends is true. -/
def sql (column : String) : KeyTest → String
  | .eq value => column ++ " = " ++ value.sql
  | .oneOf values => column ++ " IN (" ++ ", ".intercalate (values.map (·.sql)) ++ ")"
  | .range none none => "TRUE"
  | .range lower upper =>
    let above := lower.toList.map fun b ↦
      column ++ (if b.inclusive then " >= " else " > ") ++ b.value.sql
    let below := upper.toList.map fun b ↦
      column ++ (if b.inclusive then " <= " else " < ") ++ b.value.sql
    " AND ".intercalate (above ++ below)
  | .isNull => column ++ " IS NULL"
  | .isNotNull => column ++ " IS NOT NULL"

end KeyTest

structure KeyPredicate where
  /-- The name of a clustering column, in any case of its ASCII letters. -/
  column : String
  test : KeyTest
  deriving DecidableEq, Inhabited

namespace KeyPredicate

def sql (p : KeyPredicate) : String := p.test.sql p.column

end KeyPredicate

end QueryPlanning
