import QueryPlanning.Proofs.Spec.PlanningOutcome

/-!
# What planning leaves behind

Splitting a plan and estimating the sinks leaves a session whose plans hold all nodes and fragments
and whose sinks lead where the fragments send their rows. The estimates change the memory of sinks
and nothing else.
-/

namespace QueryPlanning

/-- The fragment as it is before its sink is estimated. -/
def Fragment.unestimated (x : Fragment) : Fragment :=
  { x with sink := x.sink.map ({ · with memory := -1 }) }

namespace Fragment

section Unestimated

variable {x y : Fragment} (h : x.unestimated = y.unestimated)

include h

theorem destination_of_unestimated : x.destination = y.destination :=
  (Fragment.mk.inj h).2.2.2.1

theorem links_of_unestimated : x.links = y.links := by
  have hlinks (z : Fragment) : z.unestimated.links = z.links := by
    unfold unestimated links
    rw [Option.map_map]
    rfl
  rw [← hlinks x, h, hlinks y]

theorem sink_of_unestimated {k : Sink} (hk : x.sink = some k) :
    ∃ l, y.sink = some l ∧ l.fragment = k.fragment ∧ l.kind = k.kind := by
  have hsink : y.sink.map ({ · with memory := -1 }) = x.sink.map ({ · with memory := -1 }) :=
    (congrArg Fragment.sink h).symm
  rw [hk, Option.map_some, Option.map_eq_some_iff] at hsink
  obtain ⟨l, hl, heq⟩ := hsink
  obtain ⟨hfragment, hkind, _⟩ := Sink.mk.inj heq
  exact ⟨l, hl, hfragment, hkind⟩

end Unestimated

end Fragment

namespace Session

variable {s s' s'' : Session} {roots : List FragmentId}

/-- Sinks have been estimated, and nothing else has changed. -/
structure Reestimated (s s' : Session) : Prop where
  nodes : s'.nodes = s.nodes
  ids : s'.fragments.map (·.id) = s.fragments.map (·.id)
  fragment (f : FragmentId) :
    (s'.fragment? f).map Fragment.unestimated = (s.fragment? f).map Fragment.unestimated

namespace Reestimated

theorem refl (s : Session) : s.Reestimated s := ⟨rfl, rfl, fun _ ↦ rfl⟩

theorem trans (h : s.Reestimated s') (h' : s'.Reestimated s'') : s.Reestimated s'' where
  nodes := h'.nodes.trans h.nodes
  ids := h'.ids.trans h.ids
  fragment f := (h'.fragment f).trans (h.fragment f)

theorem estimateSink {f : FragmentId} (h : s.estimateSink f = .ok s') : s.Reestimated s' := by
  simp only [Session.estimateSink, Outcome.bind_eq_ok, fragment_eq_ok] at h
  obtain ⟨x, hx, n, _, h⟩ := h
  split at h
  · rw [← Outcome.pure_eq_ok.mp h]
    exact .refl s
  · rename_i k hk
    obtain ⟨l, hl, h⟩ := Outcome.bind_eq_ok.mp h
    obtain ⟨memory, _, rfl⟩ := Outcome.map_eq_ok.mp hl
    rw [← Outcome.pure_eq_ok.mp h]
    have hid (y : Fragment) :
        ({ y with sink := some { k with memory } } : Fragment).id = y.id := rfl
    refine ⟨rfl, ?_, fun g ↦ ?_⟩
    · exact Numbered.map_idOf_modify hid f s.fragments
    · rw [fragment?_modifyFragment hid]
      split
      · rename_i hg
        rw [hg, hx]
        simp [Fragment.unestimated, hk]
      · rfl

theorem estimateSinks (h : s.estimateSinks roots = .ok s') : s.Reestimated s' := by
  refine Outcome.foldlM_invariant s.Reestimated (fun root t t' ht hroot ↦ ?_) h (.refl s)
  obtain ⟨tree, _, hroot⟩ := Outcome.bind_eq_ok.mp hroot
  refine Outcome.foldlM_invariant s.Reestimated (fun f u u' hu hf ↦ ?_) hroot ht
  exact hu.trans (estimateSink hf)

theorem node? (h : s.Reestimated s') (i : NodeId) : s'.node? i = s.node? i := by
  rw [Session.node?, h.nodes, Session.node?]

theorem exists_fragment (h : s.Reestimated s') {f : FragmentId} {x' : Fragment}
    (hx' : s'.fragment? f = some x') :
    ∃ x, s.fragment? f = some x ∧ x'.unestimated = x.unestimated := by
  obtain ⟨x, hx, heq⟩ := exists_of_map_eq (h.fragment f).symm hx'
  exact ⟨x, hx, heq.symm⟩

theorem symm (h : s.Reestimated s') : s'.Reestimated s where
  nodes := h.nodes.symm
  ids := h.ids.symm
  fragment f := (h.fragment f).symm

theorem alike (h : s.Reestimated s') : s.Alike s' where
  nodes i := by rw [h.node?]
  fragments f := map_eq_of_map_eq (fun _ _ ↦ Fragment.links_of_unestimated) (h.fragment f)

theorem ordered (h : s.Reestimated s') (ho : s.Ordered) : s'.Ordered where
  nodes := h.nodes ▸ ho.nodes
  fragments := ho.fragments.of_map_idOf h.ids

theorem coherent (h : s.Reestimated s') (hs : s.Coherent) : s'.Coherent :=
  h.alike.coherent hs (h.ordered hs.ordered)

theorem planned (h : s.Reestimated s') (hs : s.Planned roots) : s'.Planned roots where
  coherent := h.coherent hs.coherent
  owned hn := hs.owned (h.node? _ ▸ hn)
  nodup := hs.nodup
  mem_roots {f} := by
    have mono {s s' : Session} (h : s.Reestimated s') :
        (∃ x, s'.fragment? f = some x ∧ x.destination = none) →
          ∃ x, s.fragment? f = some x ∧ x.destination = none := by
      rintro ⟨x', hx', hdest⟩
      obtain ⟨x, hx, heq⟩ := h.exists_fragment hx'
      exact ⟨x, hx, (Fragment.destination_of_unestimated heq).symm.trans hdest⟩
    exact hs.mem_roots.trans ⟨mono h.symm, mono h⟩

end Reestimated

/-- A sink belongs to its fragment, and the rows for an exchange go to that above the fragment. -/
def Directed (s : Session) : Prop :=
  ∀ f x k, s.fragment? f = some x → x.sink = some k →
    k.fragment = f ∧ ∀ e partitioning, k.kind = .stream e partitioning → x.destination = some e

theorem Reestimated.directed (h : s.Reestimated s') (hs : s.Directed) : s'.Directed := by
  intro f x' k' hx' hk'
  obtain ⟨x, hx, heq⟩ := h.exists_fragment hx'
  obtain ⟨k, hk, hfragment, hkind⟩ := Fragment.sink_of_unestimated heq hk'
  obtain ⟨hown, hstream⟩ := hs f x k hx hk
  rw [hfragment] at hown
  rw [hkind] at hstream
  refine ⟨hown, fun e partitioning he ↦ ?_⟩
  rw [Fragment.destination_of_unestimated heq]
  exact hstream e partitioning he

end Session

/-- A sink that belongs to the fragment and sends nothing to exchanges. -/
def Fragment.EndsAt (x : Fragment) (f : FragmentId) : Prop :=
  ∃ kind, x.sink = some { fragment := f, kind } ∧ ∀ e partitioning, kind ≠ .stream e partitioning

/-- Fragments that feed an exchange send their rows there, and the roots of plans end at a sink of
their own. -/
theorem Splitting.Progress.directed {st : Splitting} {top : NodeId} (h : st.Progress top)
    (hroot : ∀ f x, st.roots[0]? = some f → st.session.fragment? f = some x → x.EndsAt f) :
    st.session.Directed := by
  intro f x k hx hk
  rcases h.sink_cases hx with ⟨e, partitioning, memory, hdest, hsink⟩ | hfirst | ⟨_, _, _, hsink⟩
  · obtain rfl := Option.some.inj (hk.symm.trans hsink)
    refine ⟨rfl, ?_⟩
    rintro _ _ ⟨⟩
    exact hdest
  · obtain ⟨kind, hsink, hkind⟩ := hroot f x hfirst hx
    obtain rfl := Option.some.inj (hk.symm.trans hsink)
    exact ⟨rfl, fun e partitioning he ↦ absurd he (hkind e partitioning)⟩
  · obtain rfl := Option.some.inj (hk.symm.trans hsink)
    exact ⟨rfl, fun _ _ ↦ SinkKind.noConfusion⟩

namespace PlanSpec

variable {spec : PlanSpec} {catalog catalog' : Catalog} {cluster : Cluster} {options : Options}
  {root : FragmentId} {roots : List FragmentId} {s s' : Session}

theorem sinkKind_ne_stream {kind : SinkKind} (h : spec.sinkKind catalog = .ok kind) (e : NodeId)
    (partitioning : Partitioning) : kind ≠ .stream e partitioning := by
  unfold sinkKind at h
  split at h
  · obtain ⟨sink, _, rfl⟩ := Outcome.map_eq_ok.mp h
    exact SinkKind.noConfusion
  · obtain rfl := Except.ok.inj h
    exact SinkKind.noConfusion

/-- Planning splits the plan and then estimates the sinks of all plans. -/
theorem exists_split_of_planParallel
    (hfrom : spec.buildFrom catalog cluster options = .ok (root, s))
    (hrun : s.planParallel root = .ok (roots, s')) :
    ∃ t, s.Split t root roots ∧ t.estimateSinks roots = .ok s' := by
  cases hcreate : s.createPlans root with
  | mk result t =>
    simp only [Session.planParallel, hcreate, Outcome.bind_eq_ok, Outcome.pure_eq_ok] at hrun
    obtain ⟨roots', rfl, s₂, hestimate, hrun⟩ := hrun
    obtain ⟨rfl, rfl⟩ := Prod.mk.inj hrun
    exact ⟨t, (wellFormed_of_buildFrom hfrom).split hcreate, hestimate⟩

theorem planned_of_planParallel (hfrom : spec.buildFrom catalog cluster options = .ok (root, s))
    (hrun : s.planParallel root = .ok (roots, s')) : s'.Planned roots ∧ s'.Directed := by
  obtain ⟨x, kind, hx, hkind, hsink⟩ := exists_sink_of_buildFrom hfrom
  obtain ⟨t, hsplit, hestimate⟩ := exists_split_of_planParallel hfrom hrun
  have hhead := hsplit.head (wellFormed_of_buildFrom hfrom)
  obtain ⟨children, hx'⟩ := hsplit.top hx
  obtain ⟨st, rfl, rfl, hp, _⟩ := hsplit.progress hx
  have hreestimated := Session.Reestimated.estimateSinks hestimate
  refine ⟨hreestimated.planned hp.planned, hreestimated.directed (hp.directed ?_)⟩
  intro f y hf hy
  obtain rfl := Option.some.inj (hhead.symm.trans hf)
  obtain rfl := Option.some.inj (hx'.symm.trans hy)
  exact ⟨kind, hsink, sinkKind_ne_stream hkind⟩

/-- What can be seen of the plans of a specification. -/
def planned? {α : Type} (spec : PlanSpec) (f : List FragmentId → Session → α) :
    Option (FragmentId × List FragmentId × α) := do
  let (root, s) ← (spec.build {} {} {}).1.toOption
  let (roots, s') ← (s.planParallel root).toOption
  return (root, roots, f roots s')

theorem exists_of_planned? {α : Type} {f : List FragmentId → Session → α} {a : α}
    (h : spec.planned? f = some (root, roots, a)) :
    ∃ s s', spec.build {} {} {} = (.ok (root, s), (spec.build {} {} {}).2) ∧
      s.planParallel root = .ok (roots, s') ∧ f roots s' = a := by
  obtain ⟨⟨root', s⟩, hs, h⟩ := Option.bind_eq_some_iff.mp h
  obtain ⟨⟨roots', s'⟩, hrun, h⟩ := Option.bind_eq_some_iff.mp h
  obtain ⟨rfl, heq⟩ := Prod.mk.inj (Option.some.inj h)
  obtain ⟨rfl, rfl⟩ := Prod.mk.inj heq
  have hbuild : (spec.build {} {} {}).1 = .ok (root', s) := Outcome.toOption_eq_some.mp hs
  exact ⟨s, s', Prod.ext hbuild rfl, Outcome.toOption_eq_some.mp hrun, rfl⟩

theorem exists_of_planned?_of_nil (hnil : spec.tables = []) {α : Type}
    {f : List FragmentId → Session → α} {a : α} (h : spec.planned? f = some (root, roots, a)) :
    ∃ s s', spec.build {} {} {} = (.ok (root, s), {}) ∧
      s.planParallel root = .ok (roots, s') ∧ f roots s' = a := by
  obtain ⟨s, s', hbuild, hrun, ha⟩ := exists_of_planned? h
  rw [build_of_nil hnil] at hbuild
  exact ⟨s, s', (build_of_nil hnil ..).trans hbuild, hrun, ha⟩

end PlanSpec

end QueryPlanning
