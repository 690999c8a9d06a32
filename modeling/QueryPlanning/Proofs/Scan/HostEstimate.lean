import Mathlib.Data.Finset.Card
import Mathlib.Data.Finset.Dedup
import QueryPlanning.Proofs.Scan.ScanEstimates

/-!
# The hosts of a scan

The ranges of a scan are counted one by one, and no further once they occupy the whole cluster. What
the counting would come to in the end is the same: each range more leaves the number of nodes as it
is or raises it, and beyond the size of the cluster that makes no difference. So the estimate is a
function of three numbers: the ranges with a replica in the cluster, the ranges without one, and
the hosts of the cluster with a replica of any range.
-/

namespace QueryPlanning

namespace ScanRange

variable {hosts : Hosts} {c : Cluster} {r : ScanRange}

/-- The address of every replica is known. -/
def IsResolved (hosts : Hosts) (r : ScanRange) : Prop :=
  ∀ x ∈ r.replicas, (hosts.address? x.host).isSome = true

instance (hosts : Hosts) (r : ScanRange) : Decidable (r.IsResolved hosts) :=
  inferInstanceAs (Decidable (∀ x ∈ r.replicas, _))

/-- The known addresses of the replicas. -/
def replicaAddresses (hosts : Hosts) (r : ScanRange) : List Address :=
  r.replicas.filterMap fun x ↦ hosts.address? x.host

/-- The addresses of the replicas in the cluster. -/
def members (hosts : Hosts) (c : Cluster) (r : ScanRange) : List Address :=
  (r.replicaAddresses hosts).filter c.contains

/-- Some replica is in the cluster. -/
def isLocal (hosts : Hosts) (c : Cluster) (r : ScanRange) : Bool :=
  (r.replicaAddresses hosts).any c.contains

theorem isLocal_iff : r.isLocal hosts c = true ↔ r.members hosts c ≠ [] := by
  rw [isLocal, members, List.any_eq_true, ne_eq, List.filter_eq_nil_iff]
  simp only [not_forall, Decidable.not_not, exists_prop]

theorem addresses_eq_ok (h : r.IsResolved hosts) :
    Spread.addresses hosts r = .ok (r.replicaAddresses hosts) := by
  rw [Spread.addresses, replicaAddresses, Outcome.mapM_eq_ok]
  unfold IsResolved at h
  generalize r.replicas = replicas at h ⊢
  induction replicas with
  | nil => exact .nil
  | cons x rest ih =>
    obtain ⟨hfirst, hrest⟩ := List.forall_mem_cons.mp h
    obtain ⟨a, ha⟩ := Option.isSome_iff_exists.mp hfirst
    simp only [List.filterMap_cons, ha]
    refine .cons ?_ (ih hrest)
    rw [ha]

end ScanRange

namespace Spread

variable {hosts : Hosts} {c : Cluster} {s : Spread} {r : ScanRange} {ranges rest : List ScanRange}

/-- Hosts of the cluster with a replica of some range. -/
def memberHosts (hosts : Hosts) (c : Cluster) (ranges : List ScanRange) : Finset Address :=
  (ranges.flatMap (·.members hosts c)).toFinset

/-- The number of nodes that all ranges come to. -/
def nodesOf (hosts : Hosts) (c : Cluster) (ranges : List ScanRange) : Nat :=
  min (ranges.countP (·.isLocal hosts c)) (memberHosts hosts c ranges).card +
    min (ranges.countP fun r ↦ !r.isLocal hosts c) c.size

theorem memberHosts_append : memberHosts hosts c (ranges ++ rest) =
    memberHosts hosts c ranges ∪ memberHosts hosts c rest := by
  rw [memberHosts, List.flatMap_append, List.toFinset_append]
  rfl

/-- Ranges never take nodes away. -/
theorem nodesOf_le_append : nodesOf hosts c ranges ≤ nodesOf hosts c (ranges ++ rest) := by
  have hcard : (memberHosts hosts c ranges).card ≤ (memberHosts hosts c (ranges ++ rest)).card := by
    rw [memberHosts_append]
    exact Finset.card_le_card Finset.subset_union_left
  rw [nodesOf, nodesOf, List.countP_append, List.countP_append]
  omega

theorem nodesOf_le_length : nodesOf hosts c ranges ≤ ranges.length := by
  have hsplit := List.length_eq_countP_add_countP (l := ranges) (·.isLocal hosts c)
  simp only [decide_not, Bool.decide_eq_true] at hsplit
  unfold nodesOf
  omega

theorem nodesOf_perm (h : ranges.Perm rest) : nodesOf hosts c ranges = nodesOf hosts c rest := by
  have hmembers : memberHosts hosts c ranges = memberHosts hosts c rest :=
    List.toFinset_eq_of_perm _ _ (h.flatMap_right _)
  rw [nodesOf, nodesOf, hmembers, h.countP_eq, h.countP_eq]

/-- What a spread says of some ranges. -/
structure Counts (hosts : Hosts) (c : Cluster) (ranges : List ScanRange) (s : Spread) : Prop where
  localRanges : s.localRanges = ranges.countP (·.isLocal hosts c)
  remoteRanges : s.remoteRanges = ranges.countP fun r ↦ !r.isLocal hosts c
  nodup : s.localHosts.Nodup
  hosts : s.localHosts.toFinset = memberHosts hosts c ranges

theorem Counts.nodes (h : Counts hosts c ranges s) : s.nodes c.size = nodesOf hosts c ranges := by
  rw [Spread.nodes, nodesOf, h.localRanges, h.remoteRanges, ← h.hosts,
    List.toFinset_card_of_nodup h.nodup]

theorem counts_nil : Counts hosts c [] {} := ⟨rfl, rfl, .nil, rfl⟩

/-- Each address is listed once. -/
theorem foldl_insert (as hs : List Address) (hnodup : hs.Nodup) :
    (as.foldl (fun hs a ↦ if hs.contains a then hs else a :: hs) hs).Nodup ∧
      (as.foldl (fun hs a ↦ if hs.contains a then hs else a :: hs) hs).toFinset =
        hs.toFinset ∪ as.toFinset := by
  induction as generalizing hs with
  | nil => exact ⟨hnodup, (Finset.union_empty _).symm⟩
  | cons a as ih =>
    rw [List.foldl_cons, List.toFinset_cons]
    by_cases ha : a ∈ hs
    · rw [if_pos (List.contains_iff_mem.mpr ha)]
      obtain ⟨hnodup', hset⟩ := ih hs hnodup
      refine ⟨hnodup', ?_⟩
      rw [hset, Finset.union_insert, Finset.insert_eq_of_mem]
      exact Finset.mem_union_left _ (List.mem_toFinset.mpr ha)
    · rw [if_neg (mt List.contains_iff_mem.mp ha)]
      obtain ⟨hnodup', hset⟩ := ih (a :: hs) (List.nodup_cons.mpr ⟨ha, hnodup⟩)
      refine ⟨hnodup', ?_⟩
      rw [hset, List.toFinset_cons, Finset.insert_union, Finset.union_insert]

theorem Counts.add (h : Counts hosts c ranges s) (r : ScanRange) :
    Counts hosts c (ranges ++ [r]) (s.add c (r.replicaAddresses hosts)) := by
  have hmembers : memberHosts hosts c (ranges ++ [r]) =
      s.localHosts.toFinset ∪ (r.members hosts c).toFinset := by
    rw [memberHosts_append, ← h.hosts, memberHosts, List.flatMap_singleton]
  have hfilter : (r.replicaAddresses hosts).filter c.contains = r.members hosts c := rfl
  unfold Spread.add
  rw [hfilter]
  cases hr : r.members hosts c with
  | nil =>
    have hlocal : r.isLocal hosts c = false := by
      rw [← Bool.not_eq_true, ScanRange.isLocal_iff, hr]
      exact fun hne ↦ hne rfl
    constructor
    case localRanges => simp [h.localRanges, hlocal]
    case remoteRanges => simp [h.remoteRanges, hlocal]
    case nodup => exact h.nodup
    case hosts =>
      rw [hmembers, hr]
      exact (Finset.union_empty _).symm
  | cons a as =>
    have hlocal : r.isLocal hosts c = true := by
      rw [ScanRange.isLocal_iff, hr]
      exact List.cons_ne_nil a as
    obtain ⟨hnodup, hset⟩ := foldl_insert (a :: as) s.localHosts h.nodup
    constructor
    case localRanges => simp [h.localRanges, hlocal]
    case remoteRanges => simp [h.remoteRanges, hlocal]
    case nodup => exact hnodup
    case hosts =>
      rw [hmembers, hr]
      exact hset

/-- Counting comes to the number of nodes of all ranges, as far as the cluster has them. -/
theorem Counts.exists_count (h : Counts hosts c ranges s) (hrest : ∀ r ∈ rest, r.IsResolved hosts) :
    ∃ s', count hosts c s rest = .ok s' ∧
      min (s'.nodes c.size) c.size = min (nodesOf hosts c (ranges ++ rest)) c.size := by
  induction rest generalizing ranges s with
  | nil => exact ⟨s, rfl, by rw [h.nodes, List.append_nil]⟩
  | cons r rest ih =>
    obtain ⟨hfirst, hrest⟩ := List.forall_mem_cons.mp hrest
    have hadd := h.add r
    rw [count, ScanRange.addresses_eq_ok hfirst, Outcome.ok_bind, List.append_cons]
    by_cases hfull : c.size ≤ (s.add c (r.replicaAddresses hosts)).nodes c.size
    · -- What is not counted any more could only add to nodes that the cluster does not have.
      refine ⟨_, if_pos hfull, ?_⟩
      have hle : nodesOf hosts c (ranges ++ [r]) ≤ nodesOf hosts c (ranges ++ [r] ++ rest) :=
        nodesOf_le_append
      rw [hadd.nodes] at hfull ⊢
      omega
    · obtain ⟨s', hcount, hnodes⟩ := ih hadd hrest
      exact ⟨s', (if_neg hfull).trans hcount, hnodes⟩

end Spread

section Estimate

variable {hosts : Hosts} {c : Cluster} {rows : Int} {ranges : List ScanRange}

theorem scanNodes_eq_nodesOf (hcount : ranges.length < 0x80000000)
    (hresolved : ∀ r ∈ ranges, r.IsResolved hosts) :
    scanNodes hosts c rows ranges =
      .ok (if rows = 0 then 1 else ↑(max 1 (min c.size (Spread.nodesOf hosts c ranges)))) := by
  obtain ⟨spread, hspread, hnodes⟩ := Spread.counts_nil.exists_count hresolved
  rw [List.nil_append] at hnodes
  have hle : Spread.nodesOf hosts c ranges ≤ ranges.length := Spread.nodesOf_le_length
  rw [scanNodes, hspread, Outcome.ok_bind]
  simp only [hnodes]
  by_cases hrows : rows = 0
  · rw [if_pos (.inl hrows), if_pos hrows]
    rfl
  · by_cases hzero : min (Spread.nodesOf hosts c ranges) c.size = 0
    · rw [if_pos (.inr hzero), if_neg hrows, Nat.min_comm, hzero]
      rfl
    · rw [if_neg (not_or.mpr ⟨hrows, hzero⟩), if_neg hrows, Number.wrapSigned_of_lt (by omega),
        Nat.min_comm, Nat.max_eq_right (by omega)]
      rfl

/-- The estimate of some ranges whose hosts are known, by what there is to be counted. It does not
depend on their order, and it is at least one but not more than the cluster has. -/
theorem scanNodes_eq (c : Cluster) (rows : Int) (hcount : ranges.length < 0x80000000)
    (hresolved : ∀ r ∈ ranges, r.IsResolved hosts) :
    scanNodes hosts c rows ranges = .ok (if rows = 0 then 1 else
        ↑(max 1 (min c.size (min (ranges.countP (·.isLocal hosts c))
            (Spread.memberHosts hosts c ranges).card +
          min (ranges.countP fun r ↦ !r.isLocal hosts c) c.size)))) ∧
      (∀ ranges', ranges'.Perm ranges →
        scanNodes hosts c rows ranges' = scanNodes hosts c rows ranges) ∧
      ∀ nodes, scanNodes hosts c rows ranges = .ok nodes →
        1 ≤ nodes ∧ nodes ≤ max 1 (c.size : Int) := by
  have heq : scanNodes hosts c rows ranges = _ := scanNodes_eq_nodesOf hcount hresolved
  refine ⟨heq, fun ranges' hperm ↦ ?_, fun nodes hnodes ↦ ?_⟩
  · have hresolved' : ∀ r ∈ ranges', r.IsResolved hosts :=
      fun r hr ↦ hresolved r (hperm.mem_iff.mp hr)
    rw [heq, scanNodes_eq_nodesOf (hperm.length_eq ▸ hcount) hresolved', Spread.nodesOf_perm hperm]
  · obtain rfl := Except.ok.inj (heq.symm.trans hnodes)
    split <;> omega

/-- A cluster of six nodes, of which two hosts are known. -/
def sixNodes : Cluster := { hostnames := ["north", "south"], size := 6 }

/-- Only the first two are hosts of the cluster. -/
def threeHosts : Hosts := ⟨[⟨"north", 1⟩, ⟨"south", 1⟩, ⟨"west", 1⟩]⟩

def rangeOn (hosts : List Nat) : ScanRange :=
  { (default : ScanRange) with replicas := hosts.map (⟨·, false⟩) }

/-- Three ranges have replicas on one host of the cluster, and two have none in it. -/
def fiveRanges : List ScanRange :=
  [rangeOn [0], rangeOn [2], rangeOn [0, 2], rangeOn [2], rangeOn [0]]

/-- The ranges on one host are worth one node, and each of the others is worth one more. -/
theorem scanNodes_eq_sixNodes :
    fiveRanges.countP (·.isLocal threeHosts sixNodes) = 3 ∧
      (Spread.memberHosts threeHosts sixNodes fiveRanges).card = 1 ∧
      (fiveRanges.countP fun r ↦ !r.isLocal threeHosts sixNodes) = 2 ∧
      scanNodes threeHosts sixNodes 7 fiveRanges = .ok 3 ∧
      scanNodes threeHosts sixNodes 7 fiveRanges.reverse = .ok 3 := by
  have hlocal : fiveRanges.countP (·.isLocal threeHosts sixNodes) = 3 := by decide
  have hhosts : (Spread.memberHosts threeHosts sixNodes fiveRanges).card = 1 := by decide
  have hremote : (fiveRanges.countP fun r ↦ !r.isLocal threeHosts sixNodes) = 2 := by decide
  have hresolved : ∀ r ∈ fiveRanges, r.IsResolved threeHosts := by decide
  obtain ⟨hnodes, hperm, -⟩ := scanNodes_eq sixNodes 7 (by decide) hresolved
  rw [hlocal, hhosts, hremote] at hnodes
  have hreverse := hperm fiveRanges.reverse fiveRanges.reverse_perm
  exact ⟨hlocal, hhosts, hremote, hnodes, hreverse.trans hnodes⟩

end Estimate

end QueryPlanning
