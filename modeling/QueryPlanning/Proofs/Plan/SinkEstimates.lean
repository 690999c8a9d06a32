import QueryPlanning.Proofs.Plan.Dependencies

/-!
# Estimates of sinks

An estimate of the memory of a sink fails only if the sink writes to a table in a format that
cannot be written. It changes nothing else, so the trees of fragments are the same during the whole
loop. Of the plans that are split off, no fragment writes to a table.
-/

namespace QueryPlanning

/-- There is a writer for files of the format. -/
def FileFormat.Writable (format : FileFormat) : Prop := format = .parquet ∨ format = .text

namespace TableSink

theorem memory_cases (sink : TableSink) (i : SinkInput) :
    (sink.format.Writable ∧ ∃ m, sink.memory i = .ok m) ∨
      (¬sink.format.Writable ∧ sink.memory i = .error (.sinkFormat sink.format)) := by
  have available {bytes : Int} (h : sink.partitionMemory = .ok bytes) :
      ∃ m, sink.memory i = .ok m := by
    rw [memory, h]
    simp only [bind, Except.bind]
    split
    · exact ⟨_, rfl⟩
    · exact ⟨_, rfl⟩
  have unavailable (h : sink.partitionMemory = .error (.sinkFormat sink.format)) :
      sink.memory i = .error (.sinkFormat sink.format) := by
    rw [memory, h]
    rfl
  unfold FileFormat.Writable
  cases hformat : sink.format with
  | parquet => exact .inl ⟨.inl rfl, available (by rw [partitionMemory, hformat])⟩
  | text => exact .inl ⟨.inr rfl, available (by rw [partitionMemory, hformat])⟩
  | _ =>
    rw [hformat] at unavailable
    exact .inr ⟨by simp, unavailable (by rw [partitionMemory, hformat])⟩

end TableSink

namespace Fragment

/-- If the fragment writes to a table, then to one with a writer. -/
def Estimable (x : Fragment) : Prop :=
  ∀ k sink, x.sink = some k → k.kind = .table sink → sink.format.Writable

/-- The error tells that there is no writer for the table of the fragment. -/
def Inestimable (x : Fragment) (e : Error) : Prop :=
  ∃ k sink, x.sink = some k ∧ k.kind = .table sink ∧ ¬sink.format.Writable ∧
    e = .sinkFormat sink.format

end Fragment

theorem Sink.estimate_cases (k : Sink) (i : SinkInput) :
    ((∀ sink, k.kind = .table sink → sink.format.Writable) ∧
        ∃ memory, k.estimate i = .ok { k with memory }) ∨
      ∃ sink, k.kind = .table sink ∧ ¬sink.format.Writable ∧
        k.estimate i = .error (.sinkFormat sink.format) := by
  have done {m : Int} (h : k.kind.memory i = .ok m) :
      k.estimate i = .ok { k with memory := m } := by
    rw [estimate, h]
    rfl
  cases hkind : k.kind with
  | table sink =>
    rw [hkind] at done
    rcases sink.memory_cases i with ⟨hwritable, m, hm⟩ | ⟨hwritable, he⟩
    · left
      refine ⟨?_, m, done hm⟩
      rintro _ ⟨⟩
      exact hwritable
    · refine .inr ⟨sink, rfl, hwritable, ?_⟩
      rw [estimate, hkind, SinkKind.memory, he]
      rfl
  | _ =>
    left
    rw [hkind] at done
    exact ⟨nofun, 0, done rfl⟩

namespace Session

variable {s s' s'' : Session}

/-- Estimates the sinks of one plan. -/
def estimatePlan (s : Session) (root : FragmentId) : Except Error Session := do
  (← s.fragmentTree root).foldlM estimateSink s

theorem estimateSinks_eq (s : Session) (roots : List FragmentId) :
    s.estimateSinks roots = roots.foldlM estimatePlan s := rfl

/-- The sinks of a plan can be estimated. -/
def Estimable (s : Session) (root : FragmentId) : Prop :=
  ∀ f x, s.InTree root f → s.fragment? f = some x → x.Estimable

/-- The error tells that there is no writer for a table of the plan. -/
def Inestimable (s : Session) (root : FragmentId) (e : Error) : Prop :=
  ∃ f x, s.InTree root f ∧ s.fragment? f = some x ∧ x.Inestimable e

/-- Two sessions that differ in the memory of sinks at most. -/
structure Estimated (s s' : Session) : Prop where
  alike : s.Alike s'
  ordered : s'.Ordered
  sink (f : FragmentId) : (s'.fragment? f).map (fun x ↦ x.sink.map (·.kind)) =
    (s.fragment? f).map fun x ↦ x.sink.map (·.kind)

namespace Estimated

theorem refl (h : s.Ordered) : s.Estimated s := ⟨⟨fun _ ↦ rfl, fun _ ↦ rfl⟩, h, fun _ ↦ rfl⟩

theorem fragment (h : s.Estimated s') {f : FragmentId} {x : Fragment}
    (hx : s.fragment? f = some x) : ∃ x', s'.fragment? f = some x' ∧ x'.root = x.root ∧
      x'.sink.map (·.kind) = x.sink.map (·.kind) := by
  obtain ⟨x', hx', hlinks⟩ := h.alike.fragment hx
  have hsink := h.sink f
  rw [hx, hx'] at hsink
  exact ⟨x', hx', Fragment.links_root hlinks, Option.some.inj hsink⟩

/-- The sink of a fragment may get other memory. -/
theorem remember (h : s.Estimated s') {f : FragmentId} {x' : Fragment} {k : Sink}
    (hx' : s'.fragment? f = some x') (hk : x'.sink = some k) (memory : Int) :
    s.Estimated (s'.modifyFragment f ({ · with sink := some { k with memory } })) := by
  let remembered := fun x : Fragment ↦ { x with sink := some { k with memory } }
  have hid (x : Fragment) : (remembered x).id = x.id := rfl
  refine ⟨h.alike.trans (.modifyFragment hid fun y hy ↦ ?_), h.ordered.modifyFragment hid f,
    fun g ↦ ?_⟩
  · obtain rfl := Option.some.inj (hx'.symm.trans hy)
    rw [Fragment.links, Fragment.links, hk]
    rfl
  · rw [← h.sink]
    have hget := fragment?_modifyFragment hid s' f g
    split at hget
    · rename_i hg
      subst hg
      rw [hget, hx']
      exact congrArg (some ∘ Option.map (·.kind)) hk.symm
    · rw [hget]

/-- One estimate. -/
theorem estimateSink (h : s.Estimated s') {f : FragmentId} {x : Fragment} {n : Node}
    (hx : s.fragment? f = some x) (hn : s.node? x.root = some n) :
    (x.Estimable ∧ ∃ s'', s'.estimateSink f = .ok s'' ∧ s.Estimated s'') ∨
      ∃ e, x.Inestimable e ∧ s'.estimateSink f = .error e := by
  obtain ⟨x', hx', hroot, hkind⟩ := h.fragment hx
  obtain ⟨n', hn', _⟩ := h.alike.node hn
  rw [← hroot] at hn'
  rw [Session.estimateSink, fragment_eq_ok.mpr hx']
  simp only [bind, Except.bind, node_eq_ok.mpr hn']
  cases hsink : x'.sink with
  | none =>
    rw [hsink, Option.map_none, eq_comm, Option.map_eq_none_iff] at hkind
    left
    refine ⟨fun k sink hk ↦ ?_, s', rfl, h⟩
    cases hkind.symm.trans hk
  | some k' =>
    rw [hsink, Option.map_some, eq_comm, Option.map_eq_some_iff] at hkind
    obtain ⟨k, hk, hkind⟩ := hkind
    rcases k'.estimate_cases ⟨n'.rows, n'.rowSize, n'.hosts⟩ with
      ⟨hwritable, memory, hm⟩ | ⟨sink, htable, hwritable, he⟩
    · left
      refine ⟨fun l sink hl htable ↦ ?_, _, ?_, h.remember hx' hsink memory⟩
      · obtain rfl := Option.some.inj (hk.symm.trans hl)
        exact hwritable sink (hkind.symm.trans htable)
      · simp only [hm]
        rfl
    · refine .inr ⟨_, ⟨k, sink, hk, hkind.trans htable, hwritable, rfl⟩, ?_⟩
      simp only [he]

/-- The estimates of a plan. -/
theorem estimatePlan (h : s.Estimated s') (hs : s.Coherent) {r : FragmentId} {x : Fragment}
    (hx : s.fragment? r = some x) :
    (s.Estimable r ∧ ∃ s'', s'.estimatePlan r = .ok s'' ∧ s.Estimated s'') ∨
      ∃ e, s.Inestimable r e ∧ s'.estimatePlan r = .error e := by
  have hs' := h.alike.coherent hs h.ordered
  obtain ⟨x', hx', _⟩ := h.fragment hx
  obtain ⟨tree, htree, _, _, hmem⟩ := exists_fragmentTree hs'.linked hs'.acyclic hx'
  rw [h.alike.inTree] at hmem
  have step (f : FragmentId) (hf : f ∈ tree) (t : Session) (ht : s.Estimated t) :
      ((∀ y, s.fragment? f = some y → y.Estimable) ∧
          ∃ t', t.estimateSink f = .ok t' ∧ s.Estimated t') ∨
        ∃ e, (∃ y, s.fragment? f = some y ∧ y.Inestimable e) ∧ t.estimateSink f = .error e := by
    obtain ⟨y, hy⟩ : ∃ y, s.fragment? f = some y := by
      rcases Relation.ReflTransGen.cases_tail ((hmem f).mp hf) with rfl | ⟨p, _, hp⟩
      · exact ⟨x, hx⟩
      · obtain ⟨y, hy, _⟩ := fragment?_of_parent? hp
        exact ⟨y, hy⟩
    obtain ⟨n, hn, _⟩ := hs.root hy
    rcases ht.estimateSink hy hn with ⟨hgood, hnext⟩ | ⟨e, hbad, he⟩
    · left
      refine ⟨fun z hz ↦ ?_, hnext⟩
      obtain rfl := Option.some.inj (hy.symm.trans hz)
      exact hgood
    · exact .inr ⟨e, ⟨y, hy, hbad⟩, he⟩
  rw [Session.estimatePlan, htree]
  rcases Outcome.foldlM_cases step h with ⟨hgood, hend⟩ | ⟨f, hf, e, ⟨y, hy, hbad⟩, he⟩
  · exact .inl ⟨fun f y hf ↦ hgood f ((hmem f).mpr hf) y, hend⟩
  · exact .inr ⟨e, ⟨f, y, (hmem f).mp hf, hy, hbad⟩, he⟩

end Estimated

/-- The estimates of some plans come to an end, unless one of the plans writes to a table without
writer. -/
theorem Coherent.estimateSinks_cases (hs : s.Coherent) {roots : List FragmentId}
    (hroots : ∀ r ∈ roots, ∃ x, s.fragment? r = some x) :
    ((∀ r ∈ roots, s.Estimable r) ∧ ∃ s', s.estimateSinks roots = .ok s') ∨
      ∃ r ∈ roots, ∃ e, s.Inestimable r e ∧ s.estimateSinks roots = .error e := by
  have step (r : FragmentId) (hr : r ∈ roots) (t : Session) (ht : s.Estimated t) :
      (s.Estimable r ∧ ∃ t', t.estimatePlan r = .ok t' ∧ s.Estimated t') ∨
        ∃ e, s.Inestimable r e ∧ t.estimatePlan r = .error e := by
    obtain ⟨x, hx⟩ := hroots r hr
    exact ht.estimatePlan hs hx
  rw [estimateSinks_eq]
  rcases Outcome.foldlM_cases step (.refl hs.ordered) with ⟨hgood, s', hs', _⟩ | hbad
  · exact .inl ⟨hgood, s', hs'⟩
  · exact .inr hbad

end Session

/-- The ways in which the rows leave a fragment: to the exchange that it feeds, as the result of the
plan that was split, or into the table of a join. -/
theorem Splitting.Progress.sink_cases {st : Splitting} {top : NodeId} (h : st.Progress top)
    {f : FragmentId} {x : Fragment} (hx : st.session.fragment? f = some x) :
    (∃ e partitioning memory, x.destination = some e ∧
        x.sink = some ⟨f, .stream e partitioning, memory⟩) ∨
      st.roots[0]? = some f ∨
      ∃ i keys, st.roots[i + 1]? = some f ∧
        x.sink = some { fragment := f, kind := .joinBuild (.ofNat i) keys } := by
  cases hdest : x.destination with
  | some e =>
    obtain ⟨n, hn, hkind⟩ := h.coherent.destination hx hdest
    obtain ⟨y, partitioning, memory, hy, _, _, hsink, _⟩ := h.coherent.exchange hn hkind
    obtain rfl := Option.some.inj (hx.symm.trans hy)
    exact .inl ⟨e, partitioning, memory, rfl, hsink⟩
  | none =>
    obtain ⟨i, hi⟩ := List.mem_iff_getElem?.mp (h.mem_roots.mpr ⟨x, hx, hdest⟩)
    cases i with
    | zero => exact .inr (.inl hi)
    | succ i =>
      obtain ⟨y, _, _, _, keys, hy, _, _, htable, _, _, hsink⟩ := h.build hi
      obtain rfl := Option.some.inj (hx.symm.trans hy)
      rw [htable] at hsink
      exact .inr (.inr ⟨i, keys, hi, hsink⟩)

namespace Splitting.Complete

variable {st : Splitting} {top : NodeId}

/-- Only the plan that was split may write to a table: the other fragments send their rows to
exchanges or to the tables of joins. -/
theorem not_table (h : st.Complete top) {f : FragmentId} {x : Fragment}
    (hx : st.session.fragment? f = some x) (hf : st.roots[0]? ≠ some f) {k : Sink}
    {sink : TableSink} (hk : x.sink = some k) : k.kind ≠ .table sink := by
  intro hkind
  rcases h.progress.sink_cases hx with ⟨_, _, _, _, hsink⟩ | hroot | ⟨_, _, _, hsink⟩
  · obtain rfl := Option.some.inj (hk.symm.trans hsink)
    cases hkind
  · exact hf hroot
  · obtain rfl := Option.some.inj (hk.symm.trans hsink)
    cases hkind

/-- All sinks can be estimated if that of the plan that was split can. -/
theorem estimateSinks_cases (h : st.Complete top) {root : FragmentId} {x : Fragment}
    (hroot : st.roots[0]? = some root) (hx : st.session.fragment? root = some x) :
    (x.Estimable ∧ ∃ s, st.session.estimateSinks st.roots = .ok s) ∨
      ∃ e, x.Inestimable e ∧ st.session.estimateSinks st.roots = .error e := by
  have hp := h.progress
  have held (r : FragmentId) (hr : r ∈ st.roots) : ∃ y, st.session.fragment? r = some y := by
    obtain ⟨y, hy, _⟩ := hp.mem_roots.mp hr
    exact ⟨y, hy⟩
  rcases hp.coherent.estimateSinks_cases held with
    ⟨hgood, hend⟩ | ⟨r, _, e, ⟨f, y, _, hy, hbad⟩, he⟩
  · exact .inl ⟨hgood root (List.mem_of_getElem? hroot) root x .refl hx, hend⟩
  · obtain ⟨k, sink, hk, hkind, _⟩ := id hbad
    have hf : f = root := by
      by_contra hne
      refine h.not_table hy (fun hf ↦ hne ?_) hk hkind
      exact Option.some.inj (hf.symm.trans hroot)
    subst hf
    obtain rfl := Option.some.inj (hx.symm.trans hy)
    exact .inr ⟨e, hbad, he⟩

end Splitting.Complete

end QueryPlanning
