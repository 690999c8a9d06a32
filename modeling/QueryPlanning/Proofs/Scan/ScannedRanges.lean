import QueryPlanning.Proofs.Catalog.HostNumbering
import QueryPlanning.Proofs.Outcome
import QueryPlanning.Scan.Basic

/-!
# What a scan reads

The ranges of a scan come from the blocks of the files in its partitions, and a block from the
pieces of a file. Pieces of pieces follow each other just as the pieces do, so the ranges of a file
cover it; and each range names the hosts of its block, in the numbering of the query.
-/

namespace QueryPlanning

-- The sums of the core library, whatever else is imported.
attribute [local instance (high)] Zero.ofOfNat0

open Outcome (Runs)

theorem forall₂_comp {α β γ : Type} {R : α → β → Prop} {S : β → γ → Prop} {T : α → γ → Prop}
    (comp : ∀ a b c, R a b → S b c → T a c) {l : List α} {m : List β} {n : List γ}
    (h : List.Forall₂ R l m) (h' : List.Forall₂ S m n) : List.Forall₂ T l n := by
  induction h generalizing n with
  | nil =>
    obtain rfl := List.forall₂_nil_left_iff.mp h'
    exact .nil
  | cons hab _ ih =>
    obtain ⟨c, rest, hbc, hrest, rfl⟩ := List.forall₂_cons_left_iff.mp h'
    exact .cons (comp _ _ _ hab hbc) (ih hrest)

/-- Lists of matches, put together on both sides. -/
theorem exists_forall₂_flatMap {ι α β : Type} {R : α → List β → Prop} {items : ι → List α}
    {l : List ι} {ls : List (List β)}
    (h : List.Forall₂ (fun i l' ↦ ∃ gs, List.Forall₂ R (items i) gs ∧ l' = gs.flatten) l ls) :
    ∃ gs, List.Forall₂ R (l.flatMap items) gs ∧ ls.flatten = gs.flatten := by
  induction h with
  | nil => exact ⟨[], .nil, rfl⟩
  | cons hfirst _ ih =>
    obtain ⟨gs, hgs, rfl⟩ := hfirst
    obtain ⟨gs', hgs', heq⟩ := ih
    refine ⟨gs ++ gs', List.rel_append hgs hgs', ?_⟩
    rw [List.flatten_cons, heq, List.flatten_append]

/-- Pieces that follow each other from one offset to another, none of them empty. -/
def Contiguous : Int → Int → List (Int × Int) → Prop
  | start, stop, [] => start = stop
  | start, stop, (offset, length) :: rest =>
    offset = start ∧ 0 < length ∧ Contiguous (start + length) stop rest

theorem contiguous_pieces (limit offset length : Int) (h : 0 ≤ length) :
    Contiguous offset (offset + length) (pieces limit offset length) := by
  fun_induction pieces limit offset length with
  | case1 offset length hle =>
    change offset = offset + length
    omega
  | case2 offset length hpos hlimit ih =>
    have hrest := ih (by omega)
    have hstop : offset + limit + (length - limit) = offset + length := by omega
    rw [hstop] at hrest
    exact ⟨rfl, hlimit.1, hrest⟩
  | case3 offset length hpos hlimit => exact ⟨rfl, by omega, rfl⟩

namespace Contiguous

variable {start mid stop : Int} {l l' : List (Int × Int)}

theorem append (h : Contiguous start mid l) (h' : Contiguous mid stop l') :
    Contiguous start stop (l ++ l') := by
  induction l generalizing start with
  | nil =>
    obtain rfl : start = mid := h
    exact h'
  | cons piece rest ih =>
    obtain ⟨hoffset, hpos, hrest⟩ := h
    exact ⟨hoffset, hpos, ih hrest⟩

/-- Pieces may be cut again. -/
theorem flatten {ls : List (List (Int × Int))} (h : Contiguous start stop l)
    (hls : List.Forall₂ (fun piece l' ↦ Contiguous piece.1 (piece.1 + piece.2) l') l ls) :
    Contiguous start stop ls.flatten := by
  induction hls generalizing start with
  | nil => exact h
  | cons hpiece _ ih =>
    obtain ⟨rfl, -, hrest⟩ := h
    exact hpiece.append (ih hrest)

theorem pos (h : Contiguous start stop l) : ∀ piece ∈ l, 0 < piece.2 := by
  induction l generalizing start with
  | nil => exact fun _ hmem ↦ absurd hmem List.not_mem_nil
  | cons piece rest ih =>
    obtain ⟨-, hpos, hrest⟩ := h
    exact List.forall_mem_cons.mpr ⟨hpos, ih hrest⟩

theorem sum (h : Contiguous start stop l) : (l.map (·.2)).sum = stop - start := by
  induction l generalizing start with
  | nil =>
    obtain rfl : start = stop := h
    simp
  | cons piece rest ih =>
    obtain ⟨-, -, hrest⟩ := h
    rw [List.map_cons, List.sum_cons, ih hrest]
    omega

theorem le (h : Contiguous start stop l) : start ≤ stop := by
  induction l generalizing start with
  | nil => exact Int.le_of_eq h
  | cons piece rest ih =>
    obtain ⟨-, hpos, hrest⟩ := h
    have hle := ih hrest
    omega

theorem eq_nil (h : Contiguous start start l) : l = [] := by
  cases l with
  | nil => rfl
  | cons piece rest =>
    obtain ⟨-, hpos, hrest⟩ := h
    have hle := hrest.le
    omega

end Contiguous

namespace ScanRange

variable {t : Table} {limit : Int} {p : Partition} {f : DataFile} {b : Block} {r x : Replica}
  {hosts hosts' : Hosts} {g : List ScanRange}

/-- The same host in two numberings, and the same cache. -/
structure Renumbered (source target : Hosts) (r x : Replica) : Prop where
  cached : x.cached = r.cached
  address : ∃ a, source.address? r.host = some a ∧ target.address? x.host = some a

/-- The ranges of a block. -/
def OfBlock (t : Table) (limit : Int) (p : Partition) (f : DataFile) (hosts : Hosts) (b : Block)
    (g : List ScanRange) : Prop :=
  ∃ replicas, List.Forall₂ (Renumbered t.hosts hosts) b.replicas replicas ∧
    g = if b.replicas = [] then []
      else (pieces limit b.offset b.length).map (ofPiece p f replicas)

/-- The ranges of a file. -/
def OfFile (t : Table) (limit : Int) (p : Partition) (hosts : Hosts) (f : DataFile)
    (g : List ScanRange) : Prop :=
  ∃ gs, List.Forall₂ (OfBlock t limit p f hosts) f.blocks gs ∧ g = gs.flatten

/-- The ranges of a partition. -/
def OfPartition (t : Table) (limit : Int) (hosts : Hosts) (p : Partition) (g : List ScanRange) :
    Prop :=
  ∃ gs, List.Forall₂ (OfFile t limit p hosts) p.files gs ∧ g = gs.flatten

theorem Renumbered.mono {source : Hosts} (hkeeps : hosts.Keeps hosts')
    (h : Renumbered source hosts r x) : Renumbered source hosts' r x := by
  obtain ⟨hcached, a, hsource, htarget⟩ := h
  exact ⟨hcached, a, hsource, hkeeps _ _ htarget⟩

theorem OfBlock.mono (hkeeps : hosts.Keeps hosts') (h : OfBlock t limit p f hosts b g) :
    OfBlock t limit p f hosts' b g := by
  obtain ⟨replicas, hreplicas, hg⟩ := h
  exact ⟨replicas, hreplicas.imp fun _ _ ↦ .mono hkeeps, hg⟩

theorem OfFile.mono (hkeeps : hosts.Keeps hosts') (h : OfFile t limit p hosts f g) :
    OfFile t limit p hosts' f g := by
  obtain ⟨gs, hgs, hg⟩ := h
  exact ⟨gs, hgs.imp fun _ _ ↦ .mono hkeeps, hg⟩

theorem OfPartition.mono (hkeeps : hosts.Keeps hosts') (h : OfPartition t limit hosts p g) :
    OfPartition t limit hosts' p g := by
  obtain ⟨gs, hgs, hg⟩ := h
  exact ⟨gs, hgs.imp fun _ _ ↦ .mono hkeeps, hg⟩

theorem runs_renumber (h : Runs (renumber t r) hosts x hosts') :
    hosts.Keeps hosts' ∧ Renumbered t.hosts hosts' r x := by
  unfold renumber at h
  cases haddress : t.hosts.address? r.host with
  | none =>
    rw [haddress] at h
    exact absurd h Outcome.not_runs_throw
  | some a =>
    rw [haddress] at h
    obtain ⟨host, mid, hnumber, hpure⟩ := Outcome.runs_bind.mp h
    obtain ⟨rfl, rfl⟩ := Outcome.runs_pure.mp hpure
    cases hnumber
    exact ⟨hosts.keeps_number a, rfl, a, haddress, hosts.address?_number_self a⟩

/-- A loop gives what its steps give, as of the last numbering. -/
theorem runs_mapM {α β : Type} (gives : Hosts → α → β → Prop) {read : α → Numbering β}
    (mono : ∀ {hosts hosts' a b}, hosts.Keeps hosts' → gives hosts a b → gives hosts' a b)
    (step : ∀ {hosts hosts' a b}, Runs (read a) hosts b hosts' →
      hosts.Keeps hosts' ∧ gives hosts' a b)
    {l : List α} {bs : List β} (h : Runs (l.mapM read) hosts bs hosts') :
    hosts.Keeps hosts' ∧ List.Forall₂ (gives hosts') l bs := by
  apply Outcome.forall₂_of_runs_mapM Hosts.Keeps.refl _ _ _ h
  · exact fun _ _ _ ↦ .trans
  · exact fun _ _ _ _ ↦ mono
  · exact fun _ _ _ _ _ ↦ step

theorem runs_ofBlock (h : Runs (ofBlock t limit p f b) hosts g hosts') :
    hosts.Keeps hosts' ∧ OfBlock t limit p f hosts' b g := by
  obtain ⟨replicas, mid, hreplicas, h⟩ := Outcome.runs_bind.mp h
  obtain ⟨hkeeps, hall⟩ := runs_mapM (Renumbered t.hosts) .mono runs_renumber hreplicas
  have hempty : replicas.isEmpty = true ↔ b.replicas = [] := by
    rw [List.isEmpty_iff, ← List.length_eq_zero_iff, ← List.length_eq_zero_iff, hall.length_eq]
  rw [← apply_ite pure] at h
  obtain ⟨rfl, rfl⟩ := Outcome.runs_pure.mp h
  exact ⟨hkeeps, replicas, hall, if_congr hempty rfl rfl⟩

theorem runs_ofFile (h : Runs (ofFile t limit p f) hosts g hosts') :
    hosts.Keeps hosts' ∧ OfFile t limit p hosts' f g := by
  obtain ⟨gs, mid, hgs, h⟩ := Outcome.runs_bind.mp h
  obtain ⟨hkeeps, hall⟩ := runs_mapM (OfBlock t limit p f) .mono runs_ofBlock hgs
  obtain ⟨rfl, rfl⟩ := Outcome.runs_pure.mp h
  exact ⟨hkeeps, gs, hall, rfl⟩

theorem runs_ofPartition (h : Runs (ofPartition t limit p) hosts g hosts') :
    hosts.Keeps hosts' ∧ OfPartition t limit hosts' p g := by
  unfold ofPartition at h
  by_cases hdefault : p.isDefault
  · rw [if_pos hdefault] at h
    obtain ⟨_, _, hthrow, -⟩ := Outcome.runs_bind.mp h
    exact absurd hthrow Outcome.not_runs_throw
  · rw [if_neg hdefault] at h
    obtain ⟨gs, mid, hgs, h⟩ := Outcome.runs_bind.mp h
    obtain ⟨hkeeps, hall⟩ := runs_mapM (OfFile t limit p) .mono runs_ofFile hgs
    obtain ⟨rfl, rfl⟩ := Outcome.runs_pure.mp h
    exact ⟨hkeeps, gs, hall, rfl⟩

theorem runs_ofPartitions {ps : List Partition}
    (h : Runs (ofPartitions t limit ps) hosts g hosts') :
    hosts.Keeps hosts' ∧
      ∃ gs, List.Forall₂ (OfPartition t limit hosts') ps gs ∧ g = gs.flatten := by
  obtain ⟨gs, mid, hgs, h⟩ := Outcome.runs_bind.mp h
  obtain ⟨hkeeps, hall⟩ := runs_mapM (OfPartition t limit) .mono runs_ofPartition hgs
  obtain ⟨rfl, rfl⟩ := Outcome.runs_pure.mp h
  exact ⟨hkeeps, gs, hall, rfl⟩

def span (r : ScanRange) : Int × Int := (r.offset, r.length)

theorem map_span_ofPiece (replicas : List Replica) (l : List (Int × Int)) :
    (l.map (ofPiece p f replicas)).map span = l := by
  rw [List.map_map]
  exact List.map_id l

/-- Every range of a file names it and its partition, and has the replicas of a block. -/
theorem OfFile.of_mem (h : OfFile t limit p hosts f g) {r : ScanRange} (hr : r ∈ g) :
    r.partition = p.id ∧ r.file = f.name ∧ r.fileLength = f.length ∧
      ∃ b ∈ f.blocks, List.Forall₂ (Renumbered t.hosts hosts) b.replicas r.replicas := by
  obtain ⟨gs, hgs, rfl⟩ := h
  obtain ⟨g, hg, hr⟩ := List.mem_flatten.mp hr
  obtain ⟨b, hb, replicas, hreplicas, rfl⟩ := Outcome.exists_of_mem_forall₂ hgs hg
  by_cases hempty : b.replicas = []
  · rw [if_pos hempty] at hr
    cases hr
  · rw [if_neg hempty] at hr
    obtain ⟨piece, -, rfl⟩ := List.mem_map.mp hr
    exact ⟨rfl, rfl, rfl, b, hb, hreplicas⟩

/-- The ranges of a file cover what its blocks cover, if these have replicas. -/
theorem OfFile.contiguous (h : OfFile t limit p hosts f g) {start stop : Int}
    (hblocks : Contiguous start stop (f.blocks.map fun b ↦ (b.offset, b.length)))
    (hreplicas : ∀ b ∈ f.blocks, b.replicas ≠ []) : Contiguous start stop (g.map span) := by
  obtain ⟨gs, hgs, rfl⟩ := h
  rw [List.map_flatten]
  apply hblocks.flatten
  rw [List.forall₂_map_left_iff, List.forall₂_map_right_iff]
  have hblock : ∀ b ∈ f.blocks, 0 < b.length ∧ b.replicas ≠ [] :=
    fun b hb ↦ ⟨hblocks.pos _ (List.mem_map_of_mem hb), hreplicas b hb⟩
  apply ((List.forall₂_and_left _ _).mpr ⟨hblock, hgs⟩).imp
  rintro b _ ⟨⟨hpos, hne⟩, replicas, -, rfl⟩
  rw [if_neg hne, map_span_ofPiece]
  exact contiguous_pieces limit b.offset b.length (Int.le_of_lt hpos)

end ScanRange

/-! ## Scans -/

theorem ScanStatistics.bytes_settle (s : ScanStatistics) : s.settle.bytes = s.bytes := by
  unfold settle
  split <;> rfl

theorem ScanStatistics.bytes_foldl (ps : List Partition) (s : ScanStatistics) :
    (ps.foldl add s).bytes = s.bytes + (ps.map (·.size)).sum := by
  induction ps generalizing s with
  | nil => simp
  | cons p ps ih =>
    rw [List.foldl_cons, ih, List.map_cons, List.sum_cons]
    exact Int.add_assoc ..

/-- The bytes of a scan are those of the files in its partitions. -/
theorem ScanStatistics.bytes_ofPartitions (t : Table) (ps : List Partition) :
    (ofPartitions t ps).bytes = (ps.map (·.size)).sum := by
  have hsum : (ps.foldl add {}).bytes = (ps.map (·.size)).sum := by
    rw [bytes_foldl]
    exact Int.zero_add _
  unfold ofPartitions
  split
  · simp only
    split
    · rw [bytes_settle]
      exact hsum
    · exact hsum
  · exact bytes_settle _

/-- Pruning only takes identifiers away. -/
theorem Table.retain_sublist {t : Table} {predicates : List KeyPredicate} {ids retained : IdSet}
    (h : t.retain predicates ids = .ok retained) : retained.Sublist ids := by
  induction predicates generalizing ids with
  | nil =>
    obtain rfl := Except.ok.inj h
    exact .refl _
  | cons q rest ih =>
    obtain ⟨col, -, h⟩ := Outcome.bind_eq_ok.mp h
    exact (ih h).trans List.filter_sublist

theorem Table.prune_sublist {t : Table} {predicates : List KeyPredicate} {pruning : Pruning}
    (h : t.prune predicates = .ok pruning) : pruning.retained.Sublist t.index.ids := by
  obtain ⟨retained, hretain, h⟩ := Outcome.bind_eq_ok.mp h
  obtain rfl := Outcome.pure_eq_ok.mp h
  exact retain_sublist hretain

/-- A scan reads some partitions of its table, and its ranges name hosts by a numbering. -/
structure Scan.Reads (sc : Scan) (limit : Int) (ps : List Partition) (hosts : Hosts) : Prop where
  partitions : List.Forall₂ (fun id p ↦ sc.table.partition? id = some p) sc.partitions ps
  sublist : sc.partitions.Sublist sc.table.index.ids
  ranges : ∃ gs, List.Forall₂ (ScanRange.OfPartition sc.table limit hosts) ps gs ∧
    sc.ranges = gs.flatten
  stats : sc.stats = .ofPartitions sc.table ps

namespace Scan

variable {sc : Scan} {limit : Int} {ps : List Partition} {hosts hosts' : Hosts}

theorem Reads.mono (hkeeps : hosts.Keeps hosts') (h : sc.Reads limit ps hosts) :
    sc.Reads limit ps hosts' := by
  obtain ⟨gs, hgs, hranges⟩ := h.ranges
  exact ⟨h.partitions, h.sublist, ⟨gs, hgs.imp fun _ _ ↦ .mono hkeeps, hranges⟩, h.stats⟩

theorem forall₂_partitionsOf {t : Table} {ids : IdSet} (h : partitionsOf t ids = .ok ps) :
    List.Forall₂ (fun id p ↦ t.partition? id = some p) ids ps := by
  apply (Outcome.mapM_eq_ok.mp h).imp
  intro id p hp
  cases hpartition : t.partition? id with
  | none =>
    rw [hpartition] at hp
    cases hp
  | some p' =>
    rw [hpartition] at hp
    rw [Except.ok.inj hp]

/-- The steps of the plan of a scan, and what they give. -/
theorem steps_of_plan {o : Options} {c : Cluster} {t : Table} {predicates : List KeyPredicate}
    {columns : Nat} {limit : Int} {planned : Planned}
    (h : Runs (plan o c t predicates columns limit) hosts planned hosts') :
    ∃ pruning ps ranges all, t.prune predicates = .ok pruning ∧
      partitionsOf t pruning.retained = .ok ps ∧
      Runs (ScanRange.ofPartitions t o.maxRangeLength ps) hosts ranges hosts' ∧
      scanNodes hosts' c (limitedRows (ScanStatistics.ofPartitions t ps).rows limit) ranges =
        .ok all ∧
      planned.rows = limitedRows (ScanStatistics.ofPartitions t ps).rows limit ∧
      planned.nodes = (if 0 < o.nodes then min all o.nodes else all) ∧
      planned.scan = { planned.scan with
        table := t, partitions := pruning.retained, predicates, columns, ranges
        stats := .ofPartitions t ps } := by
  obtain ⟨pruning, _, hprune, h⟩ := Outcome.runs_bind.mp h
  obtain ⟨hpruning, rfl⟩ := Outcome.runs_lift.mp hprune
  obtain ⟨ps, _, hps, h⟩ := Outcome.runs_bind.mp h
  obtain ⟨hretained, rfl⟩ := Outcome.runs_lift.mp hps
  obtain ⟨ranges, mid, hranges, h⟩ := Outcome.runs_bind.mp h
  obtain ⟨hosts₁, _, hget, h⟩ := Outcome.runs_bind.mp h
  obtain ⟨rfl, rfl⟩ := Outcome.runs_get.mp hget
  obtain ⟨all, _, hnodes, h⟩ := Outcome.runs_bind.mp h
  obtain ⟨hall, rfl⟩ := Outcome.runs_lift.mp hnodes
  obtain ⟨rfl, rfl⟩ := Outcome.runs_pure.mp h
  exact ⟨pruning, ps, ranges, all, hpruning, hretained, hranges, hall, rfl, rfl, rfl⟩

theorem runs_plan {o : Options} {c : Cluster} {t : Table} {predicates : List KeyPredicate}
    {columns : Nat} {rows : Int} {planned : Planned}
    (h : Runs (plan o c t predicates columns rows) hosts planned hosts') :
    hosts.Keeps hosts' ∧ planned.scan.table = t ∧ planned.scan.predicates = predicates ∧
      planned.scan.columns = columns ∧
      ∃ ps, planned.scan.Reads o.maxRangeLength ps hosts' := by
  obtain ⟨pruning, ps, ranges, _, hprune, hps, hranges, _, _, _, hscan⟩ := steps_of_plan h
  obtain ⟨hkeeps, hall⟩ := ScanRange.runs_ofPartitions hranges
  rw [hscan]
  refine ⟨hkeeps, rfl, rfl, rfl, ps, ?_⟩
  exact ⟨forall₂_partitionsOf hps, Table.prune_sublist hprune, hall, rfl⟩

end Scan

end QueryPlanning
