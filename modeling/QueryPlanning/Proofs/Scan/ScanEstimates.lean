import QueryPlanning.Proofs.Scan.ScanSummaries
import QueryPlanning.Proofs.Scan.ScannedRanges

/-!
# Estimates of scans

What a scan estimates lies within bounds, however corrupt the statistics of its table are: the
number of rows is a count or -1, and at least one node executes the scan, but no more than there
are in the cluster.
-/

namespace QueryPlanning

open Outcome (Runs)

section Limits

variable {rows limit : Int}

theorem neg_one_le_limitedRows (h : -1 ≤ rows) : -1 ≤ limitedRows rows limit := by
  unfold limitedRows
  split <;> omega

theorem limitedRows_mem (h : -1 ≤ rows) (hlimit : 0 ≤ limit) :
    0 ≤ limitedRows rows limit ∧ limitedRows rows limit ≤ limit := by
  unfold limitedRows
  split <;> omega

end Limits

theorem Number.wrapSigned_of_lt {n : Nat} (h : n < 0x80000000) :
    wrapSigned 32 n = n := by
  change (n : Int).bmod 0x100000000 = n
  rw [Int.bmod_eq_iff (by decide)]
  omega

theorem scanNodes_mem {hosts : Hosts} {c : Cluster} {rows nodes : Int} {ranges : List ScanRange}
    (hpos : 1 ≤ c.size) (hsize : c.size < 0x80000000)
    (h : scanNodes hosts c rows ranges = .ok nodes) : 1 ≤ nodes ∧ nodes ≤ c.size := by
  obtain ⟨spread, _, h⟩ := Outcome.bind_eq_ok.mp h
  simp only at h
  split at h
  · obtain rfl := Outcome.pure_eq_ok.mp h
    omega
  · obtain rfl := Outcome.pure_eq_ok.mp h
    rw [Number.wrapSigned_of_lt (by omega)]
    omega

namespace Scan

variable {o : Options} {c : Cluster} {t : Table} {predicates : List KeyPredicate} {columns : Nat}
  {limit : Int} {planned : Planned} {hosts hosts' : Hosts}

/-- The rows that come out are those that are read, up to the limit. -/
theorem rows_of_plan (h : Runs (plan o c t predicates columns limit) hosts planned hosts') :
    -1 ≤ planned.scan.stats.rows ∧ planned.rows = limitedRows planned.scan.stats.rows limit := by
  obtain ⟨_, ps, _, _, _, _, _, _, hrows, _, hscan⟩ := steps_of_plan h
  rw [hrows, hscan]
  exact ⟨(ScanStatistics.summarizes t ps).neg_one_le, rfl⟩

theorem nodes_of_plan (hpos : 1 ≤ c.size) (hsize : c.size < 0x80000000)
    (h : Runs (plan o c t predicates columns limit) hosts planned hosts') :
    1 ≤ planned.nodes ∧ planned.nodes ≤ c.size := by
  obtain ⟨_, _, _, all, _, _, _, hall, _, hnodes, _⟩ := steps_of_plan h
  have hmem := scanNodes_mem hpos hsize hall
  rw [hnodes]
  split <;> omega

end Scan

end QueryPlanning
