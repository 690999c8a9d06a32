import QueryPlanning.Proofs.Scan.ScannedRanges

/-!
# Blocks and their ranges

The ranges of some partitions come in groups, one for each block that has bytes and replicas, in the
order of partitions, files and blocks. The ranges of a group follow each other from the beginning of
the block to its end, each as long as the limit allows, and they agree in everything else. All other
blocks are left out. The only way to fail is a partition without rows or a host without an address,
wherever among the partitions it is.
-/

namespace QueryPlanning

open Outcome (Runs Fails Hinges)

variable {limit offset length : Int}

theorem pieces_of_pos (h : 0 < length) (hlimit : limit ≤ 0) :
    pieces limit offset length = [(offset, length)] := by
  rw [pieces, if_neg (Int.not_le.mpr h), dif_neg fun hcut ↦ Int.not_lt.mpr hlimit hcut.1]

/-- Pieces are cut off at the limit, and what is left over is the last one. -/
theorem exists_pieces_eq_append (h : 0 < length) (hlimit : 0 < limit) :
    ∃ cut last, pieces limit offset length = cut ++ [last] ∧ (∀ piece ∈ cut, piece.2 = limit) ∧
      1 ≤ last.2 ∧ last.2 ≤ limit := by
  fun_induction pieces limit offset length with
  | case1 offset length hle => omega
  | case2 offset length hpos hcut ih =>
    obtain ⟨cut, last, hpieces, hfull, hlast⟩ := ih (by omega)
    refine ⟨(offset, limit) :: cut, last, ?_, List.forall_mem_cons.mpr ⟨rfl, hfull⟩, hlast⟩
    rw [hpieces, List.cons_append]
  | case3 offset length hpos hcut =>
    refine ⟨[], (offset, length), rfl, List.forall_mem_nil _, ?_⟩
    change 1 ≤ length ∧ length ≤ limit
    omega

/-- A block with the file that it is a part of and the partition of the file. -/
structure StoredBlock where
  partition : Partition
  file : DataFile
  block : Block

namespace StoredBlock

/-- The blocks of a file. -/
def ofFile (p : Partition) (f : DataFile) : List StoredBlock := f.blocks.map (⟨p, f, ·⟩)

/-- The blocks of a partition, in the order of its files. -/
def ofPartition (p : Partition) : List StoredBlock := p.files.flatMap (ofFile p)

/-- There are bytes to be read, and a host to read them from. -/
def isReadable (s : StoredBlock) : Bool := decide (0 < s.block.length) && !s.block.replicas.isEmpty

theorem isReadable_iff {s : StoredBlock} :
    s.isReadable = true ↔ 0 < s.block.length ∧ s.block.replicas ≠ [] := by
  rw [isReadable, Bool.and_eq_true, decide_eq_true_iff, Bool.not_eq_true',
    List.isEmpty_eq_false_iff]

end StoredBlock

namespace ScanRange

variable {t : Table} {p : Partition} {f : DataFile} {s : StoredBlock} {ps : List Partition}
  {hosts hosts' : Hosts} {g : List ScanRange}

/-- The ranges that a block is read by, with hosts as some numbering has them. -/
structure Tiles (t : Table) (limit : Int) (hosts : Hosts) (s : StoredBlock) (g : List ScanRange) :
    Prop where
  covers : Contiguous s.block.offset (s.block.offset + s.block.length) (g.map span)
  cut : 0 < limit → ∃ full last, g = full ++ [last] ∧ (∀ r ∈ full, r.length = limit) ∧
    1 ≤ last.length ∧ last.length ≤ limit
  whole : limit ≤ 0 → g.length = 1
  replicas : ∃ replicas, List.Forall₂ (Renumbered t.hosts hosts) s.block.replicas replicas ∧
    ∀ r ∈ g, r.replicas = replicas
  source : ∀ r ∈ g, r.partition = s.partition.id ∧ r.file = s.file.name ∧
    r.fileLength = s.file.length ∧ r.compression = s.file.compression ∧
    r.modified = s.file.modified

theorem OfBlock.tiles (h : OfBlock t limit s.partition s.file hosts s.block g)
    (hreadable : s.isReadable = true) : Tiles t limit hosts s g := by
  obtain ⟨hpos, hne⟩ := StoredBlock.isReadable_iff.mp hreadable
  obtain ⟨replicas, hreplicas, hg⟩ := h
  rw [if_neg hne] at hg
  subst hg
  constructor
  case covers =>
    rw [map_span_ofPiece]
    exact contiguous_pieces limit _ _ (Int.le_of_lt hpos)
  case cut =>
    intro hlimit
    obtain ⟨cut, last, hpieces, hfull, hlast⟩ := exists_pieces_eq_append hpos hlimit
    refine ⟨cut.map (ofPiece s.partition s.file replicas), ofPiece s.partition s.file replicas last,
      ?_, ?_, hlast⟩
    · rw [hpieces, List.map_append, List.map_singleton]
    · exact List.forall_mem_map.mpr hfull
  case whole =>
    intro hlimit
    rw [pieces_of_pos hpos hlimit]
    rfl
  case replicas => exact ⟨replicas, hreplicas, List.forall_mem_map.mpr fun _ _ ↦ rfl⟩
  case source => exact List.forall_mem_map.mpr fun _ _ ↦ ⟨rfl, rfl, rfl, rfl, rfl⟩

theorem OfBlock.eq_nil (h : OfBlock t limit s.partition s.file hosts s.block g)
    (hunreadable : ¬s.isReadable = true) : g = [] := by
  obtain ⟨replicas, -, rfl⟩ := h
  by_cases hne : s.block.replicas = []
  · exact if_pos hne
  · rw [if_neg hne, pieces_of_nonpos, List.map_nil]
    apply Int.not_lt.mp
    intro hpos
    exact hunreadable (StoredBlock.isReadable_iff.mpr ⟨hpos, hne⟩)

theorem OfFile.ofBlocks (h : OfFile t limit p hosts f g) :
    ∃ gs, List.Forall₂ (fun s ↦ OfBlock t limit s.partition s.file hosts s.block)
      (StoredBlock.ofFile p f) gs ∧ g = gs.flatten := by
  obtain ⟨gs, hgs, hg⟩ := h
  exact ⟨gs, List.forall₂_map_left_iff.mpr hgs, hg⟩

theorem OfPartition.ofBlocks (h : OfPartition t limit hosts p g) :
    ∃ gs, List.Forall₂ (fun s ↦ OfBlock t limit s.partition s.file hosts s.block)
      (StoredBlock.ofPartition p) gs ∧ g = gs.flatten := by
  obtain ⟨gs, hgs, rfl⟩ := h
  exact exists_forall₂_flatMap (hgs.imp fun _ _ ↦ OfFile.ofBlocks)

/-- Blocks that are not read have no ranges, so a group is left for each of the others. -/
theorem exists_tiles {blocks : List StoredBlock} {gs : List (List ScanRange)}
    (h : List.Forall₂ (fun s ↦ OfBlock t limit s.partition s.file hosts s.block) blocks gs) :
    ∃ groups, List.Forall₂ (Tiles t limit hosts) (blocks.filter (·.isReadable)) groups ∧
      gs.flatten = groups.flatten := by
  induction h with
  | nil => exact ⟨[], .nil, rfl⟩
  | @cons s g blocks gs hfirst _ ih =>
    obtain ⟨groups, hgroups, hflatten⟩ := ih
    by_cases hreadable : s.isReadable = true
    · refine ⟨g :: groups, ?_, ?_⟩
      · rw [List.filter_cons_of_pos hreadable]
        exact .cons (hfirst.tiles hreadable) hgroups
      · rw [List.flatten_cons, List.flatten_cons, hflatten]
    · refine ⟨groups, ?_, ?_⟩
      · rw [List.filter_cons_of_neg hreadable]
        exact hgroups
      · rw [List.flatten_cons, hfirst.eq_nil hreadable, hflatten]
        rfl

/-- The table knows the hosts of a block's replicas. -/
def Located (t : Table) (b : Block) : Prop :=
  ∀ r ∈ b.replicas, (t.hosts.address? r.host).isSome = true

/-- A partition has rows, and the table knows the hosts that they are on. -/
def Scannable (t : Table) (p : Partition) : Prop :=
  p.isDefault = false ∧ ∀ f ∈ p.files, ∀ b ∈ f.blocks, Located t b

instance (t : Table) (b : Block) : Decidable (Located t b) :=
  inferInstanceAs (Decidable (∀ r ∈ b.replicas, _))

instance (t : Table) (p : Partition) : Decidable (Scannable t p) :=
  inferInstanceAs (Decidable (_ ∧ _))

theorem not_scannable_iff :
    ¬Scannable t p ↔ p.isDefault = true ∨
      ∃ f ∈ p.files, ∃ b ∈ f.blocks, ∃ r ∈ b.replicas, t.hosts.address? r.host = none := by
  simp only [Scannable, Located, not_and_or, Bool.not_eq_false, not_forall, exists_prop,
    Option.not_isSome_iff_eq_none]

theorem hinges_internal {α : Type} {e : Error} (he : e.isInternal = true) :
    Hinges (throw e : Numbering α) False (·.isInternal = true) :=
  Outcome.hinges_throw he

theorem hinges_renumber (t : Table) (r : Replica) :
    Hinges (renumber t r) ((t.hosts.address? r.host).isSome = true) (·.isInternal = true) := by
  unfold renumber
  cases t.hosts.address? r.host with
  | none => exact (hinges_internal rfl).congr (iff_of_false id Bool.false_ne_true)
  | some a =>
    intro hosts
    refine .inl ⟨rfl, { r with host := (hosts.number a).1 }, (hosts.number a).2, ?_⟩
    exact Outcome.runs_bind.mpr ⟨_, _, rfl, Outcome.runs_pure.mpr ⟨rfl, rfl⟩⟩

theorem hinges_ofBlock (t : Table) (limit : Int) (p : Partition) (f : DataFile) (b : Block) :
    Hinges (ofBlock t limit p f b) (Located t b) (·.isInternal = true) := by
  apply Outcome.hinges_bind_pure (Outcome.hinges_mapM (hinges_renumber t))
  intro replicas
  rw [← apply_ite pure]
  exact Outcome.hinges_pure _

theorem hinges_ofFile (t : Table) (limit : Int) (p : Partition) (f : DataFile) :
    Hinges (ofFile t limit p f) (∀ b ∈ f.blocks, Located t b) (·.isInternal = true) :=
  Outcome.hinges_bind_pure (Outcome.hinges_mapM (hinges_ofBlock t limit p f))
    fun _ ↦ Outcome.hinges_pure _

theorem hinges_ofPartition (t : Table) (limit : Int) (p : Partition) :
    Hinges (ofPartition t limit p) (Scannable t p) (·.isInternal = true) := by
  have hfiles := Outcome.hinges_bind_pure
    (Outcome.hinges_mapM (l := p.files) (hinges_ofFile t limit p))
    fun gs ↦ Outcome.hinges_pure gs.flatten
  unfold ofPartition Scannable
  cases p.isDefault with
  | true =>
    exact (Outcome.hinges_bind (hinges_internal rfl) fun _ ↦ hfiles).congr
      (iff_of_false And.left fun h ↦ nomatch h.1)
  | false => exact hfiles.congr (and_iff_right rfl).symm

theorem hinges_ofPartitions (t : Table) (limit : Int) (ps : List Partition) :
    Hinges (ofPartitions t limit ps) (∀ p ∈ ps, Scannable t p) (·.isInternal = true) :=
  Outcome.hinges_bind_pure (Outcome.hinges_mapM (hinges_ofPartition t limit))
    fun _ ↦ Outcome.hinges_pure _

/-- Ranges are built from some partitions unless one of them is the default one or has a replica on
a host that the table does not know. There is one group of ranges for each block with bytes and
replicas, and nothing else. -/
theorem ofPartitions_tiles (t : Table) (limit : Int) (ps : List Partition) (hosts : Hosts) :
    ((∃ e, Fails (ofPartitions t limit ps) hosts e ∧ e.isInternal = true) ↔
        ∃ p ∈ ps, p.isDefault = true ∨ ∃ f ∈ p.files, ∃ b ∈ f.blocks, ∃ r ∈ b.replicas,
          t.hosts.address? r.host = none) ∧
      ((∃ ranges hosts', Runs (ofPartitions t limit ps) hosts ranges hosts') ↔
        ∀ p ∈ ps, Scannable t p) ∧
      ∀ ranges hosts', Runs (ofPartitions t limit ps) hosts ranges hosts' →
        hosts.Keeps hosts' ∧ ∃ groups, ranges = groups.flatten ∧
          List.Forall₂ (Tiles t limit hosts')
            ((ps.flatMap StoredBlock.ofPartition).filter (·.isReadable)) groups := by
  have hinges := hinges_ofPartitions t limit ps
  refine ⟨?_, hinges.exists_runs_iff hosts, fun ranges hosts' hrun ↦ ?_⟩
  · rw [hinges.exists_fails_iff hosts]
    simp only [not_forall, exists_prop, not_scannable_iff]
  · obtain ⟨hkeeps, gs, hgs, rfl⟩ := runs_ofPartitions hrun
    obtain ⟨blocks, hblocks, hflatten⟩ :=
      exists_forall₂_flatMap (hgs.imp fun _ _ ↦ OfPartition.ofBlocks)
    obtain ⟨groups, hgroups, hflatten'⟩ := exists_tiles hblocks
    exact ⟨hkeeps, groups, hflatten.trans hflatten', hgroups⟩

/-- A table that knows two hosts. -/
def logs : Table := { (default : Table) with hosts := ⟨[⟨"north", 1⟩, ⟨"south", 1⟩]⟩ }

/-- A file whose second block has no replicas and whose third one is empty. -/
def logFile : DataFile :=
  .named "log.gz" 10 0 [⟨0, 5, [⟨1, true⟩, ⟨0, false⟩]⟩, ⟨5, 3, []⟩, ⟨8, 0, [⟨0, false⟩]⟩,
    ⟨8, 2, [⟨0, false⟩]⟩]

def logPartition : Partition where
  id := ⟨1⟩
  values := []
  location := "/logs"
  format := .text
  files := [logFile]

theorem ofPartitions_tiles_logs :
    (∃ ranges hosts g g', Runs (ofPartitions logs 2 [logPartition]) {} ranges hosts ∧
        ranges = g ++ g' ∧
        Tiles logs 2 hosts ⟨logPartition, logFile, ⟨0, 5, [⟨1, true⟩, ⟨0, false⟩]⟩⟩ g ∧
        Tiles logs 2 hosts ⟨logPartition, logFile, ⟨8, 2, [⟨0, false⟩]⟩⟩ g') ∧
      ∃ e, Fails (ofPartitions default 2 [logPartition]) {} e ∧ e.isInternal = true := by
  constructor
  · obtain ⟨-, hruns, htiles⟩ := ofPartitions_tiles logs 2 [logPartition] {}
    obtain ⟨ranges, hosts, hrun⟩ := hruns.mpr (by decide)
    obtain ⟨-, groups, hranges, hgroups⟩ := htiles ranges hosts hrun
    have hreadable : ([logPartition].flatMap StoredBlock.ofPartition).filter (·.isReadable) =
        [⟨logPartition, logFile, ⟨0, 5, [⟨1, true⟩, ⟨0, false⟩]⟩⟩,
          ⟨logPartition, logFile, ⟨8, 2, [⟨0, false⟩]⟩⟩] := rfl
    rw [hreadable] at hgroups
    obtain ⟨g, rest, hg, hrest, rfl⟩ := List.forall₂_cons_left_iff.mp hgroups
    obtain ⟨g', others, hg', hothers, rfl⟩ := List.forall₂_cons_left_iff.mp hrest
    obtain rfl := List.forall₂_nil_left_iff.mp hothers
    refine ⟨ranges, hosts, g, g', hrun, ?_, hg, hg'⟩
    rw [hranges, List.flatten_cons, List.flatten_cons, List.flatten_nil, List.append_nil]
  · apply (ofPartitions_tiles default 2 [logPartition] {}).1.mpr
    exact ⟨logPartition, List.mem_cons_self, .inr ⟨logFile, List.mem_cons_self, _,
      List.mem_cons_self, _, List.mem_cons_self, rfl⟩⟩

end ScanRange

end QueryPlanning
