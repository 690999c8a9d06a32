import QueryPlanning.Proofs.Plan.Rehoming

/-!
# Cutting fragments off

A fragment that is cut off at a node takes over the nodes down to the exchanges below it, and the
fragments that feed these exchanges become its children. A new fragment of a plan under
construction adopts fragments that had no parent; one that is split off takes them from the
fragment that it was part of. In both cases the session stays coherent.
-/

namespace QueryPlanning.Session

variable {s s' s'' : Session} {target : FragmentId}

/-- The fragment `x` is new, and some fragments have become its children. -/
structure Parted (s s' : Session) (x : Fragment) (inputs : List FragmentId) : Prop where
  fresh : s.fragment? x.id = none
  cut : s'.fragment? x.id = some (x.rehomed x.id inputs)
  other {f : FragmentId} :
    f ≠ x.id → s'.fragment? f = (s.fragment? f).map (Fragment.rehomed x.id inputs)

namespace Parted

variable {x : Fragment} {inputs : List FragmentId} {f : FragmentId} {y : Fragment}

theorem id_ne (h : s.Parted s' x inputs) (hy : s.fragment? f = some y) : f ≠ x.id := by
  rintro rfl
  rw [h.fresh] at hy
  cases hy

/-- What was there is still there. -/
theorem fragment (h : s.Parted s' x inputs) (hy : s.fragment? f = some y) :
    s'.fragment? f = some (y.rehomed x.id inputs) := by
  rw [h.other (h.id_ne hy), hy]
  rfl

theorem fragment_cases (h : s.Parted s' x inputs) {y' : Fragment}
    (hy' : s'.fragment? f = some y') :
    (f = x.id ∧ y' = x.rehomed x.id inputs) ∨
      ∃ y, s.fragment? f = some y ∧ f ≠ x.id ∧ y' = y.rehomed x.id inputs := by
  by_cases hf : f = x.id
  · rw [hf, h.cut] at hy'
    exact .inl ⟨hf, (Option.some.inj hy').symm⟩
  · rw [h.other hf, Option.map_eq_some_iff] at hy'
    obtain ⟨y, hy, rfl⟩ := hy'
    exact .inr ⟨y, hy, hf, rfl⟩

theorem rehomed_old (h : s.Parted s' x inputs) (hy : s.fragment? f = some y) :
    y.rehomed x.id inputs = { y with
      parent := if inputs.contains f then some x.id else y.parent
      children := y.children.filter (!inputs.contains ·) } := by
  have hid := id_of_fragment? hy
  rw [Fragment.rehomed_of_ne (by rw [hid]; exact h.id_ne hy), hid]

end Parted

/-- The fragments that feed the exchanges at the bottom of the nodes that begin at a node. -/
def Feeds (s : Session) (r : NodeId) (f : FragmentId) : Prop :=
  ∃ e n, s.Reach Node.inner r e ∧ s.node? e = some n ∧ n.kind = .exchange f

/-- All nodes down to the exchanges below a node belong to one fragment, or to none. -/
def Owned (s : Session) (r : NodeId) (o : Option FragmentId) : Prop :=
  ∀ i n, s.Reach Node.inner r i → s.node? i = some n → n.owner? = o

/-- The new fragment `x` has been cut off at its root, and some fragments have become its
children. -/
structure Recut (s s' : Session) (x : Fragment) (inputs : List FragmentId) : Prop where
  ordered : s'.Ordered
  plan : s'.plan = s.plan
  fresh : s.fragment? x.id = none
  top : ∃ n, s.node? x.root = some n
  moved {i : NodeId} {n : Node} :
    s.Reach Node.inner x.root i → s.node? i = some n →
      s'.node? i = some { n with fragment := x.id }
  kept {i : NodeId} : ¬s.Reach Node.inner x.root i → s'.node? i = s.node? i
  cut : s'.fragment? x.id = some (x.rehomed x.id inputs)
  other {f : FragmentId} :
    f ≠ x.id → s'.fragment? f = (s.fragment? f).map (Fragment.rehomed x.id inputs)
  destination : x.destination = none
  parent : x.parent = none
  children : x.children = []

namespace Recut

variable {x : Fragment} {inputs : List FragmentId}

theorem rehome (h : s.Recut s' x []) (hr : s'.Rehomed s'' x.id inputs) :
    s.Recut s'' x inputs where
  ordered := hr.ordered h.ordered
  plan := by
    rw [← h.plan, Session.plan, Session.plan, hr.nodes]
  fresh := h.fresh
  top := h.top
  moved hi hn := by
    rw [node?, hr.nodes]
    exact h.moved hi hn
  kept hi := by
    rw [node?, hr.nodes]
    exact h.kept hi
  cut := by
    rw [hr.fragment, h.cut, Fragment.rehomed_nil]
    rfl
  other hf := by
    rw [hr.fragment, h.other hf, Option.map_map]
    congr 1
    funext y
    rw [Function.comp_apply, Fragment.rehomed_nil]
  destination := h.destination
  parent := h.parent
  children := h.children

theorem setSink (h : s.Recut s' x []) (kind : SinkKind) :
    s.Recut (s'.setSink x.id kind) { x with sink := some { fragment := x.id, kind } } [] where
  ordered := h.ordered.setSink x.id kind
  plan := h.plan
  fresh := h.fresh
  top := h.top
  moved hi hn := h.moved hi hn
  kept hi := h.kept hi
  cut := by
    rw [fragment?_setSink, if_pos rfl, h.cut, Fragment.rehomed_nil, Fragment.rehomed_nil]
    rfl
  other hf := by
    rw [fragment?_setSink, if_neg hf]
    exact h.other hf
  destination := h.destination
  parent := h.parent
  children := h.children

theorem parted (h : s.Recut s' x inputs) : s.Parted s' x inputs := ⟨h.fresh, h.cut, h.other⟩

theorem node_cases (h : s.Recut s' x inputs) {i : NodeId} {n' : Node}
    (hn' : s'.node? i = some n') :
    ∃ n, s.node? i = some n ∧
      ((s.Reach Node.inner x.root i ∧ n' = { n with fragment := x.id }) ∨
        (¬s.Reach Node.inner x.root i ∧ n' = n)) := by
  by_cases hi : s.Reach Node.inner x.root i
  · obtain ⟨n, hn, _⟩ := exists_node?_of_plan h.plan.symm hn'
    rw [h.moved hi hn] at hn'
    exact ⟨n, hn, .inl ⟨hi, (Option.some.inj hn').symm⟩⟩
  · exact ⟨n', (h.kept hi).symm.trans hn', .inr ⟨hi, rfl⟩⟩

theorem parent?_of_mem (h : s.Recut s' x inputs) {c : FragmentId} {y : Fragment}
    (hy : s.fragment? c = some y) (hc : c ∈ inputs) : s'.parent? c = some x.id := by
  rw [parent?_eq (h.parted.fragment hy), h.parted.rehomed_old hy]
  simp [hc]

theorem parent?_of_not_mem (h : s.Recut s' x inputs) {c : FragmentId} (hc : c ∉ inputs) :
    s'.parent? c = s.parent? c := by
  by_cases hid : c = x.id
  · rw [hid, parent?_eq h.cut, parent?, h.fresh, Fragment.rehomed_target rfl]
    exact h.parent
  · cases hy : s.fragment? c with
    | none => rw [parent?, parent?, h.other hid, hy, Option.map_none]
    | some y =>
      rw [parent?_eq (h.parted.fragment hy), parent?_eq hy, h.parted.rehomed_old hy]
      simp [hc]

end Recut

theorem Coherent.exists_of_feeds (h : s.Coherent) {r : NodeId} {f : FragmentId}
    (hf : s.Feeds r f) : ∃ y, s.fragment? f = some y := by
  obtain ⟨e, n, _, hn, hkind⟩ := hf
  obtain ⟨y, _, _, hy, _⟩ := h.exchange hn hkind
  exact ⟨y, hy⟩

/-- A fragment feeds the nodes that hold the exchange to which it sends its rows. -/
theorem Coherent.feeds_iff (h : s.Coherent) {r : NodeId} {f : FragmentId} {y : Fragment}
    (hy : s.fragment? f = some y) :
    s.Feeds r f ↔ ∃ e, y.destination = some e ∧ s.Reach Node.inner r e := by
  constructor
  · rintro ⟨e, n, he, hn, hkind⟩
    exact ⟨e, h.destination_eq hn hkind hy, he⟩
  · rintro ⟨e, hdest, he⟩
    obtain ⟨n, hn, hkind⟩ := h.destination hy hdest
    exact ⟨e, n, he, hn, hkind⟩

namespace Recut

variable {x : Fragment} {inputs : List FragmentId} {o : Option FragmentId}

theorem rehomed_cut (hr : s.Recut s' x inputs) :
    x.rehomed x.id inputs = { x with children := inputs } := by
  rw [Fragment.rehomed_target rfl, hr.children, List.nil_append]

/-- No other fragment begins inside the cut: its root would belong with that of the cut, which would
then lie below it. -/
theorem not_reach_root (hr : s.Recut s' x inputs) (h : s.Coherent) (howned : s.Owned x.root o)
    (hroot : ∀ f y, s.fragment? f = some y → y.root ≠ x.root) {f : FragmentId} {y : Fragment}
    (hy : s.fragment? f = some y) : ¬s.Reach Node.inner x.root y.root := by
  intro hin
  obtain ⟨n, hn, rfl⟩ := h.root hy
  obtain ⟨m, hm⟩ := hr.top
  have hn' : n.owner? = some n.fragment :=
    Node.owner?_eq_some.mpr ⟨rfl, h.ordered.ne_invalid hy⟩
  have hm' : m.owner? = some n.fragment := by
    rw [howned _ _ .refl hm, ← howned _ _ hin hn, hn']
  have howner : m.fragment = n.fragment := (Node.owner?_eq_some.mp hm').1
  have hbelow : s.Below x.root y.root := hin.mono Node.inner_subset
  exact hroot _ _ hy (h.tree.antisymm (h.below_root hm (howner ▸ hy)) hbelow)

theorem linked (hr : s.Recut s' x inputs) (h : s.Coherent) (hnodup : inputs.Nodup)
    (hinputs : ∀ f, f ∈ inputs ↔ s.Feeds x.root f) : s'.Linked where
  mem_children {f c y'} hy' := by
    by_cases hc : c ∈ inputs
    · obtain ⟨z, hz⟩ := h.exists_of_feeds ((hinputs c).mp hc)
      rw [hr.parent?_of_mem hz hc, Option.some.injEq]
      rcases hr.parted.fragment_cases hy' with ⟨rfl, rfl⟩ | ⟨y, hy, hne, rfl⟩
      · simp [hr.rehomed_cut, hc]
      · simp [hr.parted.rehomed_old hy, hc, Ne.symm hne]
    · rw [hr.parent?_of_not_mem hc]
      rcases hr.parted.fragment_cases hy' with ⟨rfl, rfl⟩ | ⟨y, hy, _, rfl⟩
      · rw [hr.rehomed_cut]
        refine ⟨fun hin ↦ absurd hin hc, fun hparent ↦ ?_⟩
        obtain ⟨y, hy⟩ := h.linked.parent hparent
        exact absurd rfl (hr.parted.id_ne hy)
      · simp [hr.parted.rehomed_old hy, hc, h.linked.mem_children hy]
  nodup {f y'} hy' := by
    rcases hr.parted.fragment_cases hy' with ⟨rfl, rfl⟩ | ⟨y, hy, _, rfl⟩
    · rw [hr.rehomed_cut]
      exact hnodup
    · rw [hr.parted.rehomed_old hy]
      exact (h.linked.nodup hy).filter _
  parent {f c} hparent := by
    by_cases hc : c ∈ inputs
    · obtain ⟨z, hz⟩ := h.exists_of_feeds ((hinputs c).mp hc)
      rw [hr.parent?_of_mem hz hc, Option.some.injEq] at hparent
      exact ⟨_, hparent ▸ hr.cut⟩
    · rw [hr.parent?_of_not_mem hc] at hparent
      obtain ⟨y, hy⟩ := h.linked.parent hparent
      exact ⟨_, hr.parted.fragment hy⟩

/-- The parent of a node outside the cut is either outside as well or the exchange above the root of
the node's fragment. -/
theorem connected (hr : s.Recut s' x inputs) (h : s.Coherent) {i : NodeId} {n' : Node}
    (hn' : s'.node? i = some n') (hfragment : n'.fragment ≠ .invalid) :
    ∃ y, s'.fragment? n'.fragment = some y ∧ (i = y.root ∨
      ∃ p m, s'.node? p = some m ∧ i ∈ m.children ∧ m.fragment = n'.fragment) := by
  obtain ⟨n, hn, ⟨hin, rfl⟩ | ⟨hout, rfl⟩⟩ := hr.node_cases hn'
  · refine ⟨_, hr.cut, ?_⟩
    rw [hr.rehomed_cut]
    rcases Relation.ReflTransGen.cases_tail hin with heq | ⟨p, hp, m, hm, him⟩
    · exact .inl heq
    · exact .inr ⟨p, _, hr.moved hp hm, Node.inner_subset m him, rfl⟩
  · obtain ⟨y, hy, hi⟩ := h.connected hn hfragment
    refine ⟨_, hr.parted.fragment hy, ?_⟩
    rw [hr.parted.rehomed_old hy]
    rcases hi with heq | ⟨p, m, hm, him, hsame⟩
    · exact .inl heq
    · by_cases hp : s.Reach Node.inner x.root p
      · left
        have hexchange : m.isExchange = true := by
          by_contra hno
          apply hout (hp.tail ⟨m, hm, ?_⟩)
          rwa [Node.inner, if_neg hno]
        obtain ⟨f, hf⟩ := Option.isSome_iff_exists.mp hexchange
        obtain ⟨z, _, _, hz, hchildren, _⟩ := h.exchange hm (Node.input?_eq_some.mp hf)
        rw [hchildren, List.mem_singleton] at him
        obtain ⟨k, hk, rfl⟩ := h.root hz
        rw [← him, hn] at hk
        obtain rfl := Option.some.inj hk
        obtain rfl := Option.some.inj (hz.symm.trans hy)
        exact him
      · exact .inr ⟨p, m, (hr.kept hp).trans hm, him, hsame⟩

theorem exchange (hr : s.Recut s' x inputs) (h : s.Coherent)
    (hinputs : ∀ f, f ∈ inputs ↔ s.Feeds x.root f) {e : NodeId} {n' : Node} {f : FragmentId}
    (hn' : s'.node? e = some n') (hkind : n'.kind = .exchange f) :
    ∃ y partitioning memory, s'.fragment? f = some y ∧ n'.children = [y.root] ∧
      y.destination = some e ∧ y.sink = some ⟨f, .stream e partitioning, memory⟩ ∧
      y.parent = n'.owner? := by
  obtain ⟨n, hn, hcase⟩ := hr.node_cases hn'
  have hkind' : n.kind = .exchange f := by
    rcases hcase with ⟨_, rfl⟩ | ⟨_, rfl⟩ <;> exact hkind
  have hchildren' : n'.children = n.children := by
    rcases hcase with ⟨_, rfl⟩ | ⟨_, rfl⟩ <;> rfl
  obtain ⟨y, partitioning, memory, hy, hchildren, hdest, hsink, hparent⟩ := h.exchange hn hkind'
  have hfed : f ∈ inputs ↔ s.Reach Node.inner x.root e := by
    rw [hinputs, h.feeds_iff hy, hdest]
    simp
  refine ⟨_, partitioning, memory, hr.parted.fragment hy, ?_⟩
  rw [hr.parted.rehomed_old hy]
  refine ⟨hchildren'.trans hchildren, hdest, hsink, ?_⟩
  rcases hcase with ⟨hin, rfl⟩ | ⟨hout, rfl⟩
  · have howner : ({ n with fragment := x.id } : Node).owner? = some x.id :=
      Node.owner?_eq_some.mpr ⟨rfl, hr.ordered.ne_invalid hr.cut⟩
    rw [howner]
    simp [hfed.mpr hin]
  · have hno : f ∉ inputs := fun hf ↦ hout (hfed.mp hf)
    simp [hno, hparent]

/-- Cutting off nodes that belonged together, with the fragments that feed them, keeps a session
coherent. -/
theorem coherent (hr : s.Recut s' x inputs) (h : s.Coherent) (howned : s.Owned x.root o)
    (hroot : ∀ f y, s.fragment? f = some y → y.root ≠ x.root) (hnodup : inputs.Nodup)
    (hinputs : ∀ f, f ∈ inputs ↔ s.Feeds x.root f) : s'.Coherent where
  ordered := hr.ordered
  tree := h.tree.of_plan hr.plan
  linked := hr.linked h hnodup hinputs
  root {f y'} hy' := by
    rcases hr.parted.fragment_cases hy' with ⟨rfl, rfl⟩ | ⟨y, hy, _, rfl⟩
    · obtain ⟨n, hn⟩ := hr.top
      rw [hr.rehomed_cut]
      exact ⟨_, hr.moved .refl hn, rfl⟩
    · obtain ⟨n, hn, hfragment⟩ := h.root hy
      rw [hr.parted.rehomed_old hy]
      exact ⟨n, (hr.kept (hr.not_reach_root h howned hroot hy)).trans hn, hfragment⟩
  connected hn' hfragment := hr.connected h hn' hfragment
  exchange hn' hkind := hr.exchange h hinputs hn' hkind
  destination {f y' e} hy' hdest := by
    rcases hr.parted.fragment_cases hy' with ⟨rfl, rfl⟩ | ⟨y, hy, _, rfl⟩
    · cases hr.destination.symm.trans (Fragment.rehomed_destination.symm.trans hdest)
    · obtain ⟨n, hn, hkind⟩ := h.destination hy (Fragment.rehomed_destination.symm.trans hdest)
      by_cases he : s.Reach Node.inner x.root e
      · exact ⟨_, hr.moved he hn, hkind⟩
      · exact ⟨n, (hr.kept he).trans hn, hkind⟩
  orphan {f y'} hy' hdest := by
    rcases hr.parted.fragment_cases hy' with ⟨rfl, rfl⟩ | ⟨y, hy, _, rfl⟩
    · rw [hr.rehomed_cut]
      exact hr.parent
    · have hdest' : y.destination = none := Fragment.rehomed_destination.symm.trans hdest
      have hno : f ∉ inputs := by
        rw [hinputs, h.feeds_iff hy, hdest']
        rintro ⟨_, ⟨⟩, _⟩
      rw [hr.parted.rehomed_old hy]
      simp [hno, h.orphan hy hdest']

end Recut

/-! ## New fragments -/

/-- The session after a new fragment has taken over its nodes, before it adopts other fragments. -/
def cutOff (s : Session) (root : NodeId) (partitioning : Partitioning) (members : List Node) :
    Session :=
  { s.assign (members.map (·.id)) s.nextFragment with
    fragments := s.fragments ++ [{ id := s.nextFragment, root, partitioning }] }

theorem Ordered.recut_cutOff (ho : s.Ordered) {root : NodeId} {members : List Node}
    (hmembers : s.segment root = .ok members) (partitioning : Partitioning) :
    s.Recut (s.cutOff root partitioning members)
      { id := s.nextFragment, root, partitioning } [] := by
  have hmem (i : NodeId) := mem_ids_segment hmembers (i := i)
  have hget (f : FragmentId) :
      Numbered.get? Fragment.id (s.fragments ++ [{ id := s.nextFragment, root, partitioning }]) f =
        (s.fragment? f).or (if s.nextFragment = f then
          some { id := s.nextFragment, root, partitioning } else none) :=
    Numbered.get?_append f _
  refine ⟨⟨?_, ?_⟩, ?_, ho.fragment?_nextFragment, exists_node_of_segment hmembers, ?_, ?_, ?_, ?_,
    rfl, rfl, rfl⟩
  · apply ho.nodes.map
    intro n
    split <;> rfl
  · exact ho.fragments.append rfl
  · rw [Session.plan, Session.plan, cutOff, assign, List.map_map]
    apply List.map_congr_left
    intro n _
    rw [Function.comp_apply]
    split <;> rfl
  · intro i n hi hn
    obtain rfl := id_of_node? hn
    have hin : n.id ∈ members.map (·.id) := (hmem n.id).mpr ⟨⟨n, hn⟩, hi⟩
    refine (node?_assign s (members.map (·.id)) s.nextFragment n.id).trans ?_
    rw [hn, Option.map_some, if_pos (List.contains_iff_mem.mpr hin)]
  · intro i hi
    refine (node?_assign s (members.map (·.id)) s.nextFragment i).trans ?_
    cases hn : s.node? i with
    | none => rfl
    | some n =>
      have hout : i ∉ members.map (·.id) := fun hin ↦ hi ((hmem i).mp hin).2
      rw [Option.map_some, id_of_node? hn]
      simp only [List.contains_iff_mem, hout, if_false]
  · apply (hget s.nextFragment).trans
    rw [ho.fragment?_nextFragment, Option.none_or, if_pos rfl, Fragment.rehomed_nil]
  · intro f hf
    apply (hget f).trans
    rw [if_neg (Ne.symm hf), Option.or_none]
    cases s.fragment? f <;> simp

theorem createFragment_eq_ok {root : NodeId} {partitioning : Partitioning} {id : FragmentId} :
    s.createFragment root partitioning = .ok (id, s') ↔
      id = s.nextFragment ∧ ∃ members, s.segment root = .ok members ∧
        (members.filterMap (·.input?)).foldlM (adopt id) (s.cutOff root partitioning members) =
          .ok s' := by
  simp only [createFragment, Outcome.bind_eq_ok, Outcome.pure_eq_ok, Prod.mk.injEq]
  constructor
  · rintro ⟨members, hmembers, _, hfold, rfl, rfl⟩
    exact ⟨rfl, members, hmembers, hfold⟩
  · rintro ⟨rfl, members, hmembers, hfold⟩
    exact ⟨members, hmembers, s', hfold, rfl, rfl⟩

/-- The fragments that feed a new one. -/
theorem mem_inputs_of_segment {root : NodeId} {members : List Node}
    (h : s.segment root = .ok members) {f : FragmentId} :
    f ∈ members.filterMap (·.input?) ↔ s.Feeds root f := by
  rw [List.mem_filterMap]
  constructor
  · rintro ⟨n, hn, hf⟩
    obtain ⟨hn, hr⟩ := (mem_segment h).mp hn
    exact ⟨n.id, n, hr, hn, Node.input?_eq_some.mp hf⟩
  · rintro ⟨e, n, hr, hn, hf⟩
    obtain rfl := id_of_node? hn
    exact ⟨n, (mem_segment h).mpr ⟨hn, hr⟩, Node.input?_eq_some.mpr hf⟩

theorem Coherent.nodup_inputs (h : s.Coherent) {root : NodeId} {members : List Node}
    (hmembers : s.segment root = .ok members) : (members.filterMap (·.input?)).Nodup := by
  have hwalk := hmembers
  rw [segment, segmentWithin_eq] at hwalk
  have hnodup : members.Nodup := (nodup_walkWithin h.tree Node.inner_sublist hwalk).of_map
  rw [List.Nodup, List.pairwise_filterMap]
  refine List.Pairwise.imp_of_mem ?_ hnodup
  rintro n m hn hm hne f hf _ hf' rfl
  apply hne
  obtain ⟨hn, _⟩ := (mem_segment hmembers).mp hn
  obtain ⟨hm, _⟩ := (mem_segment hmembers).mp hm
  obtain ⟨x, _, _, hx, _, hdest, _⟩ := h.exchange hn (Node.input?_eq_some.mp hf)
  have hdest' := h.destination_eq hm (Node.input?_eq_some.mp hf') hx
  have hid := Option.some.inj (hdest.symm.trans hdest')
  rw [hid, hm] at hn
  exact (Option.some.inj hn).symm

/-- Fragments that feed a cut are listed as children of their parent only. -/
theorem Coherent.listed_of_recut (h : s.Coherent) {x : Fragment} (hr : s.Recut s' x [])
    {o : Option FragmentId} (howned : s.Owned x.root o) {f : FragmentId}
    (hf : s.Feeds x.root f) : s'.Listed x.id o f := by
  obtain ⟨e, n, he, hn, hkind⟩ := hf
  obtain ⟨y, _, _, hy, _, _, _, hparent⟩ := h.exchange hn hkind
  rw [howned e n he hn] at hparent
  refine ⟨hr.parted.id_ne hy, ?_, ?_⟩
  · rw [hr.parent?_of_not_mem List.not_mem_nil, parent?_eq hy, hparent]
  · intro g z hz hfz
    rcases hr.parted.fragment_cases hz with ⟨rfl, rfl⟩ | ⟨z, hz', _, rfl⟩
    · rw [Fragment.rehomed_nil, hr.children] at hfz
      cases hfz
    · rw [Fragment.rehomed_nil, h.linked.mem_children hz', parent?_eq hy, hparent] at hfz
      exact hfz

/-- A fragment that is cut while a plan is being built adopts the fragments that feed it. -/
theorem Coherent.recut_of_free (h : s.Coherent) {root : NodeId} {partitioning : Partitioning}
    {id : FragmentId} (howned : s.Owned root none)
    (hcreate : s.createFragment root partitioning = .ok (id, s')) :
    ∃ inputs, s.Recut s' { id, root, partitioning } inputs ∧ inputs.Nodup ∧
      ∀ f, f ∈ inputs ↔ s.Feeds root f := by
  obtain ⟨rfl, members, hmembers, hfold⟩ := createFragment_eq_ok.mp hcreate
  have hcut := h.ordered.recut_cutOff hmembers partitioning
  have hinputs (f : FragmentId) := mem_inputs_of_segment hmembers (f := f)
  have hnodup := h.nodup_inputs hmembers
  refine ⟨_, hcut.rehome (Rehomed.of_foldlM Rehomed.of_adopt hnodup ?_ hfold), hnodup, hinputs⟩
  intro f hf
  exact h.listed_of_recut hcut howned ((hinputs f).mp hf)

/-- Fragments that have parents are not adopted. -/
theorem foldlM_adopt_of_parents {cs : List FragmentId}
    (hcs : ∀ c ∈ cs, ∃ p, s.parent? c = some p) : cs.foldlM (adopt target) s = .ok s := by
  induction cs with
  | nil => rfl
  | cons c cs ih =>
    obtain ⟨⟨p, hp⟩, hcs⟩ := List.forall_mem_cons.mp hcs
    obtain ⟨x, hx, hparent⟩ := fragment?_of_parent? hp
    refine Outcome.foldlM_cons_eq_ok.mpr ⟨s, ?_, ih hcs⟩
    simp only [adopt, Outcome.bind_eq_ok, fragment_eq_ok]
    refine ⟨x, hx, ?_⟩
    rw [hparent]
    rfl

/-- A fragment that is cut out of another one adopts nothing. -/
theorem Coherent.createFragment_of_owned (h : s.Coherent) {root : NodeId} {o : FragmentId}
    (howned : s.Owned root (some o)) {n : Node} (hn : s.node? root = some n)
    (partitioning : Partitioning) :
    ∃ s', s.createFragment root partitioning = .ok (s.nextFragment, s') ∧
      s.Recut s' { id := s.nextFragment, root, partitioning } [] := by
  obtain ⟨members, hmembers⟩ := h.tree.descending.exists_segment h.ordered hn
  have hcut := h.ordered.recut_cutOff hmembers partitioning
  refine ⟨_, createFragment_eq_ok.mpr ⟨rfl, members, hmembers, foldlM_adopt_of_parents ?_⟩, hcut⟩
  intro f hf
  have hfeeds := (mem_inputs_of_segment hmembers).mp hf
  exact ⟨o, (h.listed_of_recut hcut howned hfeeds).parent⟩

theorem Coherent.recut_of_owned (h : s.Coherent) {root : NodeId} {partitioning : Partitioning}
    {id o : FragmentId} (howned : s.Owned root (some o))
    (hcreate : s.createFragment root partitioning = .ok (id, s')) :
    s.Recut s' { id, root, partitioning } [] := by
  obtain ⟨_, members, hmembers, _⟩ := createFragment_eq_ok.mp hcreate
  obtain ⟨n, hn⟩ := exists_node_of_segment hmembers
  obtain ⟨cut, hcreate', hcut⟩ := h.createFragment_of_owned howned hn partitioning
  obtain ⟨rfl, rfl⟩ := Prod.mk.inj (Except.ok.inj (hcreate.symm.trans hcreate'))
  exact hcut

end QueryPlanning.Session
