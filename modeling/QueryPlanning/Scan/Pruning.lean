import QueryPlanning.Catalog.Table
import QueryPlanning.Scan.Predicate

/-!
# Pruning

Which partitions a scan has to read: those that pass all its predicates. The answer comes from the
key index of the table, one predicate after the other, without a look at the partitions;
`Table.passing` is the same answer from the partitions themselves.
-/

namespace QueryPlanning

structure Pruning where
  retained : IdSet
  pruned : IdSet
  deriving DecidableEq, Inhabited

namespace Pruning

/-- The pruned share of all partitions. -/
def ratio (p : Pruning) : Double :=
  let total := p.retained.length + p.pruned.length
  if total = 0 then ⟨0⟩ else .ofFloat (p.pruned.length.toFloat / total.toFloat)

end Pruning

namespace Table

/-- The position of the clustering column that a predicate tests. -/
def positionOf (t : Table) (p : KeyPredicate) : Except Error Nat :=
  match t.clusteringPosition? p.column with
  | some col => .ok col
  | none => .error (.notPartitionColumn p.column t.fullName)

/-- The members of a set of partitions that pass all predicates. -/
def retain (t : Table) : List KeyPredicate → IdSet → Except Error IdSet
  | [], ids => .ok ids
  | p :: rest, ids => do
    let col ← t.positionOf p
    let found := p.test.matching t.index col
    t.retain rest (ids.filter found.contains)

def prune (t : Table) (predicates : List KeyPredicate) : Except Error Pruning := do
  let retained ← t.retain predicates t.index.ids
  return ⟨retained, t.index.ids.filter fun id ↦ !retained.contains id⟩

/-- Whether the key values of a partition pass a predicate. -/
def passes (t : Table) (p : Partition) (predicate : KeyPredicate) : Bool :=
  match t.clusteringPosition? predicate.column with
  | some col => (p.values[col]?).any fun v ↦ predicate.test.holds v
  | none => false

/-- The partitions that pass all predicates, found by looking at each. -/
def passing (t : Table) (predicates : List KeyPredicate) : List Partition :=
  t.partitions.filter fun p ↦ predicates.all (t.passes p)

end Table

end QueryPlanning
