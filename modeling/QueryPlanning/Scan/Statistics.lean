import QueryPlanning.Catalog.Table
import QueryPlanning.Number.Word

/-!
# Statistics of a scan

Rows, files and bytes of the partitions that a scan reads. The rows come from the partitions or, if
none of them or no clustering column tells, from the table; -1 stands for an unknown number. A count
of rows below -1, or of none in data that has bytes, shows that the statistics are corrupt.
-/

namespace QueryPlanning

-- The sums of the core library, whatever else is imported.
attribute [local instance (high)] Zero.ofOfNat0

/-- The smaller of a number of rows and a limit, where -1 is no number and no limit. -/
def limitedRows (rows limit : Int) : Int :=
  if -1 < limit ∧ (rows = -1 ∨ limit < rows) then limit else rows

structure ScanStatistics where
  /-- Rows before predicates and limits, or -1. -/
  rows : Int := 0
  /-- Partitions without a count of rows. -/
  missing : Nat := 0
  files : Int := 0
  bytes : Int := 0
  corrupt : Bool := false
  deriving DecidableEq, Repr, Inhabited

namespace ScanStatistics

/-- Whether a number of rows cannot be that of so many bytes. -/
def isCorrupt (rows bytes : Int) : Bool :=
  rows < -1 || (rows == 0 && 0 < bytes)

/-- Takes a partition of a partitioned table into account. The sum of the rows stops at the largest
word. -/
def add (s : ScanStatistics) (p : Partition) : ScanStatistics where
  rows := if -1 < p.rows then Number.clampInt64 (s.rows + p.rows) else s.rows
  missing := if -1 < p.rows then s.missing else s.missing + 1
  files := s.files + p.fileCount
  bytes := s.bytes + p.size
  corrupt := s.corrupt || isCorrupt p.rows p.size

/-- A number of rows below -1 is unknown. -/
def settle (s : ScanStatistics) : ScanStatistics :=
  if s.rows < -1 then { s with rows := -1, corrupt := true } else s

/-- The statistics of some partitions of a table. -/
def ofPartitions (t : Table) (ps : List Partition) : ScanStatistics :=
  if t.isPartitioned then
    let sum := ps.foldl add {}
    if !ps.isEmpty && sum.missing = ps.length then settle { sum with rows := t.rows } else sum
  else
    settle {
      rows := if ps.isEmpty then 0 else t.rows
      files := (ps.map (·.fileCount)).sum
      bytes := (ps.map (·.size)).sum
      corrupt := isCorrupt t.rows t.bytes }

end ScanStatistics

end QueryPlanning
