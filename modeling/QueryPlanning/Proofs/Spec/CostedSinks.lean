import QueryPlanning.Proofs.Spec.NodeTallies
import QueryPlanning.Proofs.Spec.ScanRanges

/-!
# Costs of sinks

Once a plan is split and its sinks are estimated, each fragment has a sink of its own that takes a
known amount of memory. The first plan ends where the specification says, the others in the tables
of joins, and all other fragments send their rows to an exchange. Estimates are made plan by plan;
that none is missed is due to the trees of the plans, which hold all fragments.
-/

namespace QueryPlanning

theorem TableSink.partitionMemory_nonneg {sink : TableSink} {bytes : Int}
    (h : sink.partitionMemory = .ok bytes) : 0 ≤ bytes := by
  unfold partitionMemory at h
  split at h
  · rw [← Except.ok.inj h]
    decide
  · rw [← Except.ok.inj h]
    decide
  · cases h

/-- Without the size of a row, a table takes buffers for all its partitions. -/
theorem TableSink.memory_nonneg {sink : TableSink} {i : SinkInput} {bytes : Int}
    (hpartitions : -1 ≤ sink.partitions) (hsize : i.rowSize.isBelowZero = true)
    (h : sink.memory i = .ok bytes) : 0 ≤ bytes := by
  obtain ⟨perPartition, hbytes, h⟩ := Outcome.bind_eq_ok.mp h
  have hcount : 0 ≤ if sink.partitions = -1 then assumedPartitions else sink.partitions := by
    split
    · decide
    · omega
  rw [if_pos (.inr hsize)] at h
  rw [← Outcome.pure_eq_ok.mp h]
  exact Number.clampInt64_nonneg (Int.mul_nonneg hcount (partitionMemory_nonneg hbytes))

theorem SinkKind.memory_cases {kind : SinkKind} {i : SinkInput} {bytes : Int}
    (h : kind.memory i = .ok bytes) :
    bytes = 0 ∨ ∃ sink, kind = .table sink ∧ sink.memory i = .ok bytes := by
  cases kind with
  | table sink => exact .inr ⟨sink, rfl, h⟩
  | _ => exact .inl (Except.ok.inj h).symm

namespace Session

variable {s t t' s' : Session} {roots : List FragmentId} {r f g : FragmentId}

/-- If the fragment has a sink, then its memory is that for the rows of some node. -/
def Costed (s : Session) (f : FragmentId) : Prop :=
  ∀ x k, s.fragment? f = some x → x.sink = some k →
    ∃ n ∈ s.nodes, k.kind.memory ⟨n.rows, n.rowSize, n.hosts⟩ = .ok k.memory

/-- Whatever sink a fragment had before, one with memory for the rows of a node takes its place. -/
theorem costed_setSink {n : Node} {k : Sink} (hn : n ∈ s.nodes)
    (hk : k.kind.memory ⟨n.rows, n.rowSize, n.hosts⟩ = .ok k.memory)
    (h : s.Costed f ∨ f = g) : (s.modifyFragment g ({ · with sink := some k })).Costed f := by
  intro y l hy hl
  have hid (x : Fragment) : ({ x with sink := some k } : Fragment).id = x.id := rfl
  rw [fragment?_modifyFragment hid] at hy
  split at hy
  · obtain ⟨x, _, rfl⟩ := Option.map_eq_some_iff.mp hy
    obtain rfl := Option.some.inj hl
    exact ⟨n, hn, hk⟩
  · rename_i hfg
    exact h.resolve_right hfg y l hy hl

/-- An estimate is made for one fragment, and those that have been made stay. -/
theorem costed_estimateSink (h : s.estimateSink g = .ok s') :
    s'.Costed g ∧ ∀ f, s.Costed f → s'.Costed f := by
  simp only [estimateSink, Outcome.bind_eq_ok, fragment_eq_ok, node_eq_ok] at h
  obtain ⟨x, hx, n, hn, h⟩ := h
  split at h
  · rename_i hnone
    obtain rfl := Outcome.pure_eq_ok.mp h
    refine ⟨fun y k hy hk ↦ ?_, fun _ ↦ id⟩
    obtain rfl := Option.some.inj (hx.symm.trans hy)
    cases hnone.symm.trans hk
  · obtain ⟨l, hl, h⟩ := Outcome.bind_eq_ok.mp h
    obtain ⟨memory, hmemory, rfl⟩ := Outcome.map_eq_ok.mp hl
    obtain rfl := Outcome.pure_eq_ok.mp h
    have hnode := Numbered.mem_of_get? hn
    exact ⟨costed_setSink hnode hmemory (.inr rfl), fun f hf ↦
      costed_setSink hnode hmemory (.inl hf)⟩

theorem Reestimated.costed_estimatePlan (h : s.Reestimated t) (hs : s.Coherent) {x : Fragment}
    (hx : s.fragment? r = some x) (hrun : t.estimatePlan r = .ok t') :
    s.Reestimated t' ∧ (∀ f, s.InTree r f → t'.Costed f) ∧ ∀ f, t.Costed f → t'.Costed f := by
  -- The tree is listed in the session as it is by now, but estimates do not change trees.
  have ht := h.coherent hs
  obtain ⟨y, hy, _⟩ := h.symm.exists_fragment hx
  obtain ⟨tree, htree, _, _, hmem⟩ := exists_fragmentTree ht.linked ht.acyclic hy
  rw [h.alike.inTree] at hmem
  rw [estimatePlan, htree] at hrun
  obtain ⟨hend, hall, hkept⟩ := Outcome.foldlM_settles s.Reestimated (fun f u ↦ u.Costed f)
    (fun f _ u u' hu hf ↦ ⟨hu.trans (.estimateSink hf), costed_estimateSink hf⟩) hrun h
  exact ⟨hend, fun f hf ↦ hall f ((hmem f).mpr hf), hkept⟩

/-- All fragments in the trees of the given roots are estimated. -/
theorem Coherent.costed_estimateSinks (hs : s.Coherent)
    (hroots : ∀ r ∈ roots, ∃ x, s.fragment? r = some x) (h : s.estimateSinks roots = .ok s') :
    ∀ r ∈ roots, ∀ f, s.InTree r f → s'.Costed f := by
  rw [estimateSinks_eq] at h
  refine (Outcome.foldlM_settles s.Reestimated (fun r u ↦ ∀ f, s.InTree r f → u.Costed f)
    (fun r hr u u' hu hrun ↦ ?_) h (.refl s)).2.1
  obtain ⟨x, hx⟩ := hroots r hr
  obtain ⟨hend, hall, hkept⟩ := hu.costed_estimatePlan hs hx hrun
  exact ⟨hend, hall, fun r' hr' f hf ↦ hkept f (hr' f hf)⟩

end Session

/-- The sink takes the rows of a fragment of some plans: the first plan ends in a sink of the given
kind, every other one in the table of its join, and fragments below the roots feed exchanges. -/
structure Sink.Serves (k : Sink) (f : FragmentId) (roots : List FragmentId) (kind : SinkKind) :
    Prop where
  fragment : k.fragment = f
  first : roots[0]? = some f → k.kind = kind
  build {i : Nat} : roots[i + 1]? = some f → ∃ keys, k.kind = .joinBuild (.ofNat i) keys
  stream : f ∉ roots → ∃ e partitioning, k.kind = .stream e partitioning

theorem Sink.Serves.congr {k l : Sink} {f : FragmentId} {roots : List FragmentId} {kind : SinkKind}
    (h : k.Serves f roots kind) (hfragment : l.fragment = k.fragment) (hkind : l.kind = k.kind) :
    l.Serves f roots kind where
  fragment := hfragment.trans h.fragment
  first hf := hkind.trans (h.first hf)
  build hf := hkind ▸ h.build hf
  stream hf := hkind ▸ h.stream hf

/-- Only the first plan may write to a table. -/
theorem Sink.Serves.first_of_table {k : Sink} {f : FragmentId} {roots : List FragmentId}
    {kind : SinkKind} {sink : TableSink} (h : k.Serves f roots kind)
    (htable : k.kind = .table sink) : roots[0]? = some f := by
  by_cases hf : f ∈ roots
  · obtain ⟨i, hi⟩ := List.mem_iff_getElem?.mp hf
    cases i with
    | zero => exact hi
    | succ i =>
      obtain ⟨keys, hbuild⟩ := h.build hi
      cases htable.symm.trans hbuild
  · obtain ⟨e, partitioning, hstream⟩ := h.stream hf
    cases htable.symm.trans hstream

namespace Session

variable {s s' : Session} {roots : List FragmentId} {kind : SinkKind}

/-- Every fragment has a sink for its rows. -/
def Drained (s : Session) (roots : List FragmentId) (kind : SinkKind) : Prop :=
  ∀ f x, s.fragment? f = some x → ∃ k, x.sink = some k ∧ k.Serves f roots kind

theorem Reestimated.drained (h : s.Reestimated s') (hs : s.Drained roots kind) :
    s'.Drained roots kind := by
  intro f x' hx'
  obtain ⟨x, hx, heq⟩ := h.exists_fragment hx'
  obtain ⟨k, hk, hserves⟩ := hs f x hx
  obtain ⟨l, hl, hfragment, hkind⟩ := Fragment.sink_of_unestimated heq.symm hk
  exact ⟨l, hl, hserves.congr hfragment hkind⟩

end Session

theorem Splitting.Progress.drained {st : Splitting} {top : NodeId} (h : st.Progress top)
    {kind : SinkKind} (hroot : ∀ f x, st.roots[0]? = some f → st.session.fragment? f = some x →
      x.sink = some { fragment := f, kind }) : st.session.Drained st.roots kind := by
  intro f x hx
  have unique {i j : Nat} (hi : st.roots[i]? = some f) (hj : st.roots[j]? = some f) : i = j :=
    (List.getElem?_inj (List.getElem?_eq_some_iff.mp hi).1 h.nodup).mp (hi.trans hj.symm)
  rcases h.sink_cases hx with ⟨e, partitioning, memory, hdest, hsink⟩ | hi | ⟨i, keys, hi, hsink⟩
  · have hmem : f ∉ st.roots := by
      rw [h.mem_roots]
      rintro ⟨y, hy, hnone⟩
      obtain rfl := Option.some.inj (hx.symm.trans hy)
      cases hdest.symm.trans hnone
    exact ⟨_, hsink, rfl, fun hj ↦ absurd (List.mem_of_getElem? hj) hmem,
      fun hj ↦ absurd (List.mem_of_getElem? hj) hmem, fun _ ↦ ⟨e, partitioning, rfl⟩⟩
  · exact ⟨_, hroot f x hi hx, rfl, fun _ ↦ rfl, fun hj ↦ absurd (unique hi hj) (by omega),
      fun hmem ↦ absurd (List.mem_of_getElem? hi) hmem⟩
  · refine ⟨_, hsink, rfl, fun hj ↦ absurd (unique hi hj) (by omega), fun hj ↦ ?_,
      fun hmem ↦ absurd (List.mem_of_getElem? hi) hmem⟩
    obtain rfl := Nat.succ.inj (unique hi hj)
    exact ⟨keys, rfl⟩

namespace PlanSpec

variable {spec : PlanSpec} {catalog catalog' : Catalog} {cluster : Cluster} {options : Options}
  {root : FragmentId} {roots : List FragmentId} {s s' : Session} {kind : SinkKind}

/-- The sink that a specification asks for: rows go to the client, unless a table is named. -/
def AsksFor (spec : PlanSpec) (catalog : Catalog) (kind : SinkKind) : Prop :=
  (spec.sink = none ∧ kind = .planRoot) ∨
    ∃ write t, spec.sink = some write ∧ catalog.tableNamed write.table = .ok t ∧ kind = .table {
      table := t.fullName, op := .insert, format := t.majorityFormat, keys := write.keys,
      overwrite := write.overwrite, clustered := write.clustered,
      partitions := write.partitions.getD (-1) }

theorem asksFor_of_sinkKind (h : spec.sinkKind catalog = .ok kind) : spec.AsksFor catalog kind := by
  unfold sinkKind at h
  split at h
  · rename_i write hwrite
    obtain ⟨sink, hsink, rfl⟩ := Outcome.map_eq_ok.mp h
    obtain ⟨t, ht, rfl⟩ := exists_table_of_toSink hsink
    exact .inr ⟨write, t, hwrite, ht, rfl⟩
  · rename_i hnone
    exact .inl ⟨hnone, (Except.ok.inj h).symm⟩

theorem AsksFor.neg_one_le_partitions {sink : TableSink} (h : spec.AsksFor catalog (.table sink))
    (hpartitions : ∀ write n, spec.sink = some write → write.partitions = some n → -1 ≤ n) :
    -1 ≤ sink.partitions := by
  obtain ⟨_, htable⟩ | ⟨write, t, hwrite, _, htable⟩ := h
  · cases htable
  · obtain rfl := SinkKind.table.inj htable
    cases hsome : write.partitions with
    | none => exact Int.le_refl _
    | some n => exact hpartitions write n hwrite hsome

theorem AsksFor.exists_write {sink : TableSink} (h : spec.AsksFor catalog (.table sink)) :
    ∃ write, spec.sink = some write := by
  obtain ⟨_, htable⟩ | ⟨write, _, hwrite, _⟩ := h
  · cases htable
  · exact ⟨write, hwrite⟩

/-- All fragments are in the trees of the plans, so that all sinks are estimated. -/
theorem drained_of_planParallel (hfrom : spec.buildFrom catalog cluster options = .ok (root, s))
    (hrun : s.planParallel root = .ok (roots, s')) :
    ∃ kind, spec.AsksFor catalog kind ∧ roots[0]? = some root ∧ s'.Drained roots kind ∧
      ∀ f x, s'.fragment? f = some x → s'.Costed f := by
  obtain ⟨x, kind, hx, hkind, hsink⟩ := exists_sink_of_buildFrom hfrom
  obtain ⟨t, hsplit, hestimate⟩ := exists_split_of_planParallel hfrom hrun
  have hhead := hsplit.head (wellFormed_of_buildFrom hfrom)
  obtain ⟨children, hx'⟩ := hsplit.top hx
  obtain ⟨st, rfl, rfl, hp, _⟩ := hsplit.progress hx
  have hreestimated := Session.Reestimated.estimateSinks hestimate
  refine ⟨kind, asksFor_of_sinkKind hkind, hhead, hreestimated.drained (hp.drained ?_),
    fun f y' hy' ↦ ?_⟩
  · intro f y hf hy
    obtain rfl := Option.some.inj (hhead.symm.trans hf)
    obtain rfl := Option.some.inj (hx'.symm.trans hy)
    exact hsink
  · obtain ⟨y, hy, _⟩ := hreestimated.exists_fragment hy'
    obtain ⟨r, hr, hin⟩ := hp.planned.exists_inTree hy
    refine hp.coherent.costed_estimateSinks (fun r hr ↦ ?_) hestimate r hr f hin
    obtain ⟨z, hz, _⟩ := hp.mem_roots.mp hr
    exact ⟨z, hz⟩

end PlanSpec

namespace Session

variable {spec : PlanSpec} {catalog catalog' : Catalog} {cluster : Cluster} {options : Options}
  {root : FragmentId} {roots : List FragmentId} {s s' : Session}

/-- Every fragment of a split plan has a sink for its rows whose memory is known: the topmost one
has the sink that the specification asks for, the roots of the other plans store rows for joins and
all other fragments feed exchanges. Only a sink that writes to a table takes any memory. -/
theorem planParallel_drains
    (hpartitions : ∀ write n, spec.sink = some write → write.partitions = some n → -1 ≤ n)
    (hbuild : spec.build catalog cluster options = (.ok (root, s), catalog'))
    (hrun : s.planParallel root = .ok (roots, s')) :
    ∃ kind, spec.AsksFor catalog' kind ∧ roots[0]? = some root ∧
      ∀ x ∈ s'.fragments, ∃ k, x.sink = some k ∧ k.Serves x.id roots kind ∧ 0 ≤ k.memory ∧
        (0 < k.memory → x.id = root ∧ ∃ write sink, spec.sink = some write ∧
          k.kind = .table sink) := by
  have hfrom := PlanSpec.buildFrom_of_build hbuild
  obtain ⟨kind, hkind, hhead, hdrained, hcosted⟩ := PlanSpec.drained_of_planParallel hfrom hrun
  have hplanned := (PlanSpec.planned_of_planParallel hfrom hrun).1
  refine ⟨kind, hkind, hhead, fun x hmem ↦ ?_⟩
  have hx := hplanned.coherent.ordered.fragments.get?_of_mem hmem
  obtain ⟨k, hk, hserves⟩ := hdrained x.id x hx
  refine ⟨k, hk, hserves, ?_⟩
  obtain ⟨n, hn, hmemory⟩ := hcosted x.id x hx x k hx hk
  -- No node knows the size of its rows.
  have hsize : n.rowSize.isBelowZero = true := by
    rw [(PlanSpec.tallied_of_planParallel hfrom hrun n hn).rowSize]
    decide
  rcases SinkKind.memory_cases hmemory with hzero | ⟨sink, htable, hmemory⟩
  · rw [hzero]
    exact ⟨Int.le_refl 0, fun hlt ↦ absurd hlt (Int.lt_irrefl 0)⟩
  · have hfirst : roots[0]? = some x.id := hserves.first_of_table htable
    have hasked : spec.AsksFor catalog' (.table sink) := by
      rwa [← htable, hserves.first hfirst]
    obtain ⟨write, hwrite⟩ := hasked.exists_write
    have hcount : -1 ≤ sink.partitions := hasked.neg_one_le_partitions hpartitions
    refine ⟨sink.memory_nonneg hcount hsize hmemory, fun _ ↦ ⟨?_, write, sink, hwrite, htable⟩⟩
    exact Option.some.inj (hfirst.symm.trans hhead)

end Session

namespace PlanSpec

/-- Adds the rows of a join to a table of text files, of which two are open at a time. -/
def copied : PlanSpec where
  tables := [.users]
  root := .join {} (.scan "web.users" [] 1 (-1))
    (.exchange .unpartitioned .random (.scan "web.users" [] 1 (-1)))
  sink := some { table := "web.users", partitions := some 2 }

theorem exists_planParallel_copied : ∃ s catalog s',
    copied.build {} {} {} = (.ok (⟨1⟩, s), catalog) ∧ s.planParallel ⟨1⟩ = .ok ([⟨1⟩, ⟨2⟩], s') ∧
    s'.fragments.map (fun x ↦ x.sink.map (·.memory)) = [some 0, some 204800, some 0] := by
  have hplanned : copied.planned? (fun _ s' ↦ s'.fragments.map fun x ↦ x.sink.map (·.memory)) =
      some (⟨1⟩, [⟨1⟩, ⟨2⟩], [some 0, some 204800, some 0]) := by
    decide +kernel
  obtain ⟨s, s', hbuild, hrun, hmemory⟩ := exists_of_planned? hplanned
  exact ⟨s, _, s', hbuild, hrun, hmemory⟩

end PlanSpec

/-- With the sink for a table and without one. -/
theorem Session.planParallel_drains_copied :
    (∃ s catalog s' sink, PlanSpec.copied.build {} {} {} = (.ok (⟨1⟩, s), catalog) ∧
      s.planParallel ⟨1⟩ = .ok ([⟨1⟩, ⟨2⟩], s') ∧
      PlanSpec.copied.AsksFor catalog (.table sink) ∧
      s'.fragments.map (fun x ↦ x.sink.map (·.memory)) = [some 0, some 204800, some 0] ∧
      ∀ x ∈ s'.fragments, ∃ k, x.sink = some k ∧ k.Serves x.id [⟨1⟩, ⟨2⟩] (.table sink) ∧
        0 ≤ k.memory ∧ (0 < k.memory → x.id = ⟨1⟩)) ∧
    ∃ s s', PlanSpec.lateral.build {} {} {} = (.ok (⟨1⟩, s), {}) ∧
      s.planParallel ⟨1⟩ = .ok ([⟨1⟩, ⟨2⟩], s') ∧
      ∀ x ∈ s'.fragments, ∃ k, x.sink = some k ∧ k.Serves x.id [⟨1⟩, ⟨2⟩] .planRoot ∧
        k.memory = 0 := by
  constructor
  · obtain ⟨s, catalog, s', hbuild, hrun, hmemory⟩ := PlanSpec.exists_planParallel_copied
    have hpartitions (write : SinkSpec) (n : Int) (hwrite : PlanSpec.copied.sink = some write)
        (hn : write.partitions = some n) : -1 ≤ n := by
      obtain rfl := Option.some.inj hwrite
      obtain rfl := Option.some.inj hn
      decide
    obtain ⟨kind, ⟨hnone, _⟩ | ⟨write, t, hwrite, ht, rfl⟩, _, hsinks⟩ :=
      planParallel_drains hpartitions hbuild hrun
    · cases hnone
    · refine ⟨s, catalog, s', _, hbuild, hrun, .inr ⟨write, t, hwrite, ht, rfl⟩, hmemory,
        fun x hx ↦ ?_⟩
      obtain ⟨k, hk, hserves, hnonneg, htop⟩ := hsinks x hx
      exact ⟨k, hk, hserves, hnonneg, fun hpos ↦ (htop hpos).1⟩
  · have hplanned : PlanSpec.lateral.planned? (fun _ _ ↦ ()) = some (⟨1⟩, [⟨1⟩, ⟨2⟩], ()) := by
      decide +kernel
    obtain ⟨s, s', hbuild, hrun, _⟩ := PlanSpec.exists_of_planned?_of_nil rfl hplanned
    have hpartitions (write : SinkSpec) (n : Int) (hwrite : PlanSpec.lateral.sink = some write) :
        write.partitions = some n → -1 ≤ n := by
      cases hwrite
    obtain ⟨kind, ⟨_, rfl⟩ | ⟨write, _, hwrite, _⟩, _, hsinks⟩ :=
      planParallel_drains hpartitions hbuild hrun
    · refine ⟨s, s', hbuild, hrun, fun x hx ↦ ?_⟩
      obtain ⟨k, hk, hserves, hnonneg, htop⟩ := hsinks x hx
      refine ⟨k, hk, hserves, Int.le_antisymm (Int.not_lt.mp fun hpos ↦ ?_) hnonneg⟩
      obtain ⟨_, write, _, hwrite, _⟩ := htop hpos
      cases hwrite
    · cases hwrite

end QueryPlanning
