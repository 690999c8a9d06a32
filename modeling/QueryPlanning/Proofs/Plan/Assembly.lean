import QueryPlanning.Proofs.Plan.Recut

/-!
# Plans built from below

A plan is built by adding nodes above nodes that are not children yet, by cutting fragments at such
nodes, and by adding exchanges above fragments that feed none yet. Every session that is built in
this way is coherent, and it stays so at every step. When a single fragment is left over, all nodes
lie below its root and every other fragment feeds an exchange.
-/

namespace QueryPlanning

/-- The node receives no rows of a fragment, belongs to no fragment and has no join table. -/
structure Node.Unplaced (n : Node) : Prop where
  input : n.input? = none
  fragment : n.fragment = .invalid
  table {join : Join} : n.kind = .join join → join.table.isValid = false

namespace Node

/-- The node without its estimates. -/
def place (n : Node) : NodeKind × List NodeId × FragmentId := (n.kind, n.children, n.fragment)

section Place

variable {m n : Node} (h : m.place = n.place)

include h

theorem place_kind : m.kind = n.kind := congrArg (·.1) h

theorem place_children : m.children = n.children := congrArg (·.2.1) h

theorem place_fragment : m.fragment = n.fragment := congrArg (·.2.2) h

theorem place_links : m.links = n.links := by
  rw [links, links, input?, input?, place_kind h, place_children h, place_fragment h]

theorem place_inner : m.inner = n.inner := by
  rw [inner, inner, isExchange, isExchange, links_input? (place_links h), place_children h]

end Place

end Node

namespace Session

/-- Sessions built from below. The loose nodes are not children yet and belong to no fragment; the
open fragments feed no exchange yet. -/
inductive Built : Session → List NodeId → List FragmentId → Prop
  | empty {s : Session} : s.nodes = [] → s.fragments = [] → Built s [] []
  | add {s : Session} {loose : List NodeId} {opens : List FragmentId} {node : NodeId → Node} :
      Built s ((node s.nextNode).children ++ loose) opens →
      (node s.nextNode).id = s.nextNode → (node s.nextNode).Unplaced →
      Built (s.add node).2 (s.nextNode :: loose) opens
  | cut {s s' : Session} {loose : List NodeId} {opens : List FragmentId} {root : NodeId}
      {partitioning : Partitioning} {f : FragmentId} :
      Built s (root :: loose) opens → s.createFragment root partitioning = .ok (f, s') →
      Built s' loose (f :: opens)
  | exchange {s s' : Session} {loose : List NodeId} {opens : List FragmentId} {f : FragmentId}
      {partitioning : Partitioning} {e : NodeId} :
      Built s loose (f :: opens) → s.addExchange f partitioning = .ok (e, s') →
      Built s' (e :: loose) opens
  | setSink {s : Session} {loose : List NodeId} {opens : List FragmentId} {f : FragmentId}
      {kind : SinkKind} :
      Built s loose opens → f ∈ opens → Built (s.setSink f kind) loose opens
  | estimate {s : Session} {loose : List NodeId} {opens : List FragmentId} {i : NodeId}
      {g : Node → Node} :
      Built s loose opens → (∀ n, (g n).id = n.id) → (∀ n, (g n).kind = n.kind) →
      (∀ n, (g n).children = n.children) → (∀ n, (g n).fragment = n.fragment) →
      Built (s.modifyNode i g) loose opens
  | environment {s s' : Session} {loose : List NodeId} {opens : List FragmentId} :
      Built s loose opens → s'.nodes = s.nodes → s'.fragments = s.fragments →
      Built s' loose opens
  | perm {s : Session} {loose loose' : List NodeId} {opens opens' : List FragmentId} :
      Built s loose opens → loose.Perm loose' → opens.Perm opens' → Built s loose' opens'

/-- A plan that is complete: all that is left over is the fragment at its top. -/
def WellFormed (s : Session) (root : FragmentId) : Prop := Built s [] [root]

/-- What holds while a plan is being built. -/
structure Sound (s : Session) (loose : List NodeId) (opens : List FragmentId) : Prop where
  coherent : s.Coherent
  untabled {i : NodeId} {n : Node} {join : Join} :
    s.node? i = some n → n.kind = .join join → join.table.isValid = false
  mem_loose {i : NodeId} :
    i ∈ loose ↔ (∃ n, s.node? i = some n ∧ n.fragment = .invalid) ∧ ∀ p, ¬s.Child p i
  nodup_loose : loose.Nodup
  /-- A fragment has a node together with the children that are not across an exchange. -/
  inner {p c : NodeId} {m n : Node} :
    s.node? p = some m → c ∈ m.inner → s.node? c = some n →
      (m.fragment = .invalid ↔ n.fragment = .invalid)
  mem_opens {f : FragmentId} :
    f ∈ opens ↔ ∃ x, s.fragment? f = some x ∧ x.destination = none
  nodup_opens : opens.Nodup
  root {f : FragmentId} {x : Fragment} :
    s.fragment? f = some x → x.destination = none → ∀ p, ¬s.Child p x.root

variable {s s' : Session} {loose loose' : List NodeId} {opens opens' : List FragmentId}

theorem Ordered.nextNode_ne (h : s.Ordered) {i : NodeId} {n : Node} (hn : s.node? i = some n) :
    i ≠ s.nextNode := by
  rintro rfl
  rw [h.node?_nextNode] at hn
  cases hn

/-- A fragment after an exchange has been added above it. -/
def fed (f : FragmentId) (e : NodeId) (partitioning : Partitioning) (x : Fragment) : Fragment :=
  { x with destination := some e, sink := some { fragment := f, kind := .stream e partitioning } }

/-- The exchange above the fragment `x`, which begins at the node `n`. -/
def exchangeOver (f : FragmentId) (x : Fragment) (n : Node) (id : NodeId) : Node :=
  { id, kind := .exchange f, children := [x.root], rows := n.rows, inputRows := n.rows,
    rowSize := n.rowSize }

theorem addExchange_eq_ok {f : FragmentId} {partitioning : Partitioning} {e : NodeId} :
    s.addExchange f partitioning = .ok (e, s') ↔
      e = s.nextNode ∧ ∃ x n, s.fragment? f = some x ∧ x.destination = none ∧
        s.node? x.root = some n ∧
        s' = (s.add (exchangeOver f x n)).2.modifyFragment f (fed f s.nextNode partitioning) := by
  simp only [addExchange, Outcome.bind_eq_ok, fragment_eq_ok]
  constructor
  · rintro ⟨x, hx, h⟩
    split at h
    · cases h
    · rename_i hdest
      simp only [Outcome.bind_eq_ok, node_eq_ok, Outcome.pure_eq_ok, Prod.mk.injEq] at h
      obtain ⟨n, hn, rfl, rfl⟩ := h
      exact ⟨rfl, x, n, hx, by simpa using hdest, hn, rfl⟩
  · rintro ⟨rfl, x, n, hx, hdest, hn, rfl⟩
    refine ⟨x, hx, ?_⟩
    rw [hdest, node_eq_ok.mpr hn]
    rfl

/-- A node has been added above nodes that were not children. If it is an exchange, the fragment
below it sends its rows there now. -/
structure Grown (s s' : Session) (n₀ : Node) : Prop where
  ordered : s'.Ordered
  node (i : NodeId) : s'.node? i = if i = s.nextNode then some n₀ else s.node? i
  fragment : ∃ partitioning, ∀ f, s'.fragment? f =
    if n₀.input? = some f then (s.fragment? f).map (fed f s.nextNode partitioning)
    else s.fragment? f
  children {c : NodeId} : c ∈ n₀.children → (∃ n, s.node? c = some n) ∧ ∀ p, ¬s.Child p c
  nodup : n₀.children.Nodup
  unplaced : n₀.fragment = .invalid
  input {f : FragmentId} :
    n₀.input? = some f → ∃ x, s.fragment? f = some x ∧ x.destination = none ∧
      n₀.children = [x.root]

namespace Grown

variable {n₀ : Node}

theorem old (h : s.Grown s' n₀) (hs : s.Ordered) {i : NodeId} {n : Node}
    (hn : s.node? i = some n) : s'.node? i = some n := by
  rw [h.node, if_neg (hs.nextNode_ne hn), hn]

theorem new (h : s.Grown s' n₀) : s'.node? s.nextNode = some n₀ := by
  rw [h.node, if_pos rfl]

theorem node_cases (h : s.Grown s' n₀) {i : NodeId} {n : Node} (hn : s'.node? i = some n) :
    (i = s.nextNode ∧ n = n₀) ∨ s.node? i = some n := by
  rw [h.node] at hn
  split at hn
  · rename_i hi
    exact .inl ⟨hi, (Option.some.inj hn).symm⟩
  · exact .inr hn

theorem child_iff (h : s.Grown s' n₀) (hs : s.Ordered) {p c : NodeId} :
    s'.Child p c ↔ s.Child p c ∨ (p = s.nextNode ∧ c ∈ n₀.children) := by
  constructor
  · rintro ⟨m, hm, hc⟩
    rcases h.node_cases hm with ⟨rfl, rfl⟩ | hm
    · exact .inr ⟨rfl, hc⟩
    · exact .inl ⟨m, hm, hc⟩
  · rintro (⟨m, hm, hc⟩ | ⟨rfl, hc⟩)
    · exact ⟨m, h.old hs hm, hc⟩
    · exact ⟨n₀, h.new, hc⟩

theorem treelike (h : s.Grown s' n₀) (hs : s.Ordered) (ht : s.Treelike) : s'.Treelike where
  lt hpc := by
    rcases (h.child_iff hs).mp hpc with hpc | ⟨rfl, hc⟩
    · exact ht.lt hpc
    · obtain ⟨⟨n, hn⟩, _⟩ := h.children hc
      exact hs.lt_length hn
  child hpc := by
    rcases (h.child_iff hs).mp hpc with hpc | ⟨rfl, hc⟩
    · obtain ⟨n, hn⟩ := ht.child hpc
      exact ⟨n, h.old hs hn⟩
    · obtain ⟨⟨n, hn⟩, _⟩ := h.children hc
      exact ⟨n, h.old hs hn⟩
  nodup hn := by
    rcases h.node_cases hn with ⟨rfl, rfl⟩ | hn
    · exact h.nodup
    · exact ht.nodup hn
  unique hpc hqc := by
    rcases (h.child_iff hs).mp hpc with hpc | ⟨rfl, hc⟩ <;>
      rcases (h.child_iff hs).mp hqc with hqc | ⟨rfl, hc'⟩
    · exact ht.unique hpc hqc
    · exact absurd hpc ((h.children hc').2 _)
    · exact absurd hqc ((h.children hc).2 _)
    · rfl

theorem fragment_cases (h : s.Grown s' n₀) {f : FragmentId} {x' : Fragment}
    (hx' : s'.fragment? f = some x') :
    ∃ x, s.fragment? f = some x ∧
      ((n₀.input? = some f ∧ ∃ partitioning, x' = fed f s.nextNode partitioning x) ∨
        (n₀.input? ≠ some f ∧ x' = x)) := by
  obtain ⟨partitioning, hfragment⟩ := h.fragment
  rw [hfragment] at hx'
  split at hx'
  · rename_i hf
    obtain ⟨x, hx, rfl⟩ := Option.map_eq_some_iff.mp hx'
    exact ⟨x, hx, .inl ⟨hf, partitioning, rfl⟩⟩
  · rename_i hf
    exact ⟨x', hx', .inr ⟨hf, rfl⟩⟩

theorem fragment_old (h : s.Grown s' n₀) {f : FragmentId} {x : Fragment}
    (hx : s.fragment? f = some x) : ∃ x', s'.fragment? f = some x' ∧ x'.root = x.root := by
  obtain ⟨partitioning, hfragment⟩ := h.fragment
  rw [hfragment, hx]
  split
  · exact ⟨_, rfl, rfl⟩
  · exact ⟨_, rfl, rfl⟩

theorem sameKin (h : s.Grown s' n₀) : s.SameKin s' := by
  obtain ⟨partitioning, hfragment⟩ := h.fragment
  intro f
  rw [hfragment]
  split
  · rw [Option.map_map]
    rfl
  · rfl

theorem fragment_kept (h : s.Grown s' n₀) {f : FragmentId} {x' : Fragment}
    (hx' : s'.fragment? f = some x') : ∃ x, s.fragment? f = some x ∧ x'.root = x.root := by
  obtain ⟨x, hx, ⟨_, _, rfl⟩ | ⟨_, rfl⟩⟩ := h.fragment_cases hx'
  · exact ⟨x, hx, rfl⟩
  · exact ⟨x', hx, rfl⟩

theorem not_child_new (h : s.Grown s' n₀) (hs : s.Coherent) (p : NodeId) :
    ¬s'.Child p s.nextNode := by
  intro hp
  rcases (h.child_iff hs.ordered).mp hp with hp | ⟨_, hc⟩
  · obtain ⟨n, hn⟩ := hs.tree.child hp
    exact hs.ordered.nextNode_ne hn rfl
  · obtain ⟨⟨n, hn⟩, _⟩ := h.children hc
    exact hs.ordered.nextNode_ne hn rfl

theorem connected (h : s.Grown s' n₀) (hs : s.Coherent) {i : NodeId} {n : Node}
    (hn : s'.node? i = some n) (hvalid : n.fragment ≠ .invalid) :
    ∃ x, s'.fragment? n.fragment = some x ∧
      (i = x.root ∨ ∃ p m, s'.node? p = some m ∧ i ∈ m.children ∧ m.fragment = n.fragment) := by
  rcases h.node_cases hn with ⟨_, rfl⟩ | hn
  · exact absurd h.unplaced hvalid
  · obtain ⟨x, hx, hi⟩ := hs.connected hn hvalid
    obtain ⟨x', hx', hroot⟩ := h.fragment_old hx
    refine ⟨x', hx', ?_⟩
    rw [hroot]
    apply hi.imp_right
    rintro ⟨p, m, hm, him, hsame⟩
    exact ⟨p, m, h.old hs.ordered hm, him, hsame⟩

/-- The new node may be an exchange; the fragments below all others are not the one that it reads,
which had no destination before. -/
theorem exchange (h : s.Grown s' n₀) (hs : s.Coherent) {e : NodeId} {n : Node} {f : FragmentId}
    (hn : s'.node? e = some n) (hkind : n.kind = .exchange f) :
    ∃ x partitioning memory, s'.fragment? f = some x ∧ n.children = [x.root] ∧
      x.destination = some e ∧ x.sink = some ⟨f, .stream e partitioning, memory⟩ ∧
      x.parent = n.owner? := by
  obtain ⟨partitioning, hfragment⟩ := h.fragment
  rcases h.node_cases hn with ⟨rfl, rfl⟩ | hn
  · have hinput := Node.input?_eq_some.mpr hkind
    obtain ⟨x, hx, hdest, hchildren⟩ := h.input hinput
    have hx' := hfragment f
    rw [if_pos hinput, hx, Option.map_some] at hx'
    refine ⟨_, partitioning, -1, hx', hchildren, rfl, rfl, ?_⟩
    have hparent := hs.orphan hx hdest
    rw [Node.owner?, if_pos h.unplaced]
    exact hparent
  · obtain ⟨x, p, memory, hx, hchildren, hdest, hsink, hparent⟩ := hs.exchange hn hkind
    have hinput : n₀.input? ≠ some f := by
      intro hinput
      obtain ⟨y, hy, hnone, _⟩ := h.input hinput
      obtain rfl := Option.some.inj (hx.symm.trans hy)
      cases hdest.symm.trans hnone
    have hx' := hfragment f
    rw [if_neg hinput, hx] at hx'
    exact ⟨x, p, memory, hx', hchildren, hdest, hsink, hparent⟩

/-- A session stays coherent when a node is added. -/
theorem coherent (h : s.Grown s' n₀) (hs : s.Coherent) : s'.Coherent where
  ordered := h.ordered
  tree := h.treelike hs.ordered hs.tree
  linked := h.sameKin.linked hs.linked
  root {f x'} hx' := by
    obtain ⟨x, hx, hroot⟩ := h.fragment_kept hx'
    obtain ⟨n, hn, hfragment⟩ := hs.root hx
    rw [hroot]
    exact ⟨n, h.old hs.ordered hn, hfragment⟩
  connected hn hvalid := h.connected hs hn hvalid
  exchange hn hkind := h.exchange hs hn hkind
  destination {f x' e} hx' hdest := by
    obtain ⟨x, hx, ⟨hinput, _, rfl⟩ | ⟨_, rfl⟩⟩ := h.fragment_cases hx'
    · obtain rfl := Option.some.inj hdest
      exact ⟨n₀, h.new, Node.input?_eq_some.mp hinput⟩
    · obtain ⟨n, hn, hkind⟩ := hs.destination hx hdest
      exact ⟨n, h.old hs.ordered hn, hkind⟩
  orphan {f x'} hx' hdest := by
    obtain ⟨x, hx, ⟨_, _, rfl⟩ | ⟨_, rfl⟩⟩ := h.fragment_cases hx'
    · cases hdest
    · exact hs.orphan hx hdest

end Grown

/-! ## Soundness of every step -/

theorem node?_ne_some (hnodes : s.nodes = []) (i : NodeId) {n : Node} : s.node? i ≠ some n := by
  rw [node?, hnodes]
  exact Option.some_ne_none n ∘ Eq.symm

theorem fragment?_ne_some (hfragments : s.fragments = []) (f : FragmentId) {x : Fragment} :
    s.fragment? f ≠ some x := by
  rw [fragment?, hfragments]
  exact Option.some_ne_none x ∘ Eq.symm

theorem Coherent.empty (hnodes : s.nodes = []) (hfragments : s.fragments = []) : s.Coherent := by
  have node (i : NodeId) {n : Node} : s.node? i ≠ some n := node?_ne_some hnodes i
  have fragment (f : FragmentId) {x : Fragment} : s.fragment? f ≠ some x :=
    fragment?_ne_some hfragments f
  have child {p c : NodeId} : ¬s.Child p c := by
    rintro ⟨n, hn, _⟩
    exact node p hn
  have parent {c f : FragmentId} : s.parent? c ≠ some f := by
    intro hc
    obtain ⟨x, hx, _⟩ := fragment?_of_parent? hc
    exact fragment c hx
  constructor
  case ordered =>
    constructor
    · rw [hnodes]
      exact fun _ _ ↦ nofun
    · rw [hfragments]
      exact fun _ _ ↦ nofun
  case tree =>
    constructor
    · exact fun hpc ↦ absurd hpc child
    · exact fun hpc ↦ absurd hpc child
    · exact fun hn ↦ absurd hn (node _)
    · exact fun hpc ↦ absurd hpc child
  case linked =>
    constructor
    · exact fun hx ↦ absurd hx (fragment _)
    · exact fun hx ↦ absurd hx (fragment _)
    · exact fun hc ↦ absurd hc parent
  case root => exact fun hx ↦ absurd hx (fragment _)
  case connected => exact fun hn ↦ absurd hn (node _)
  case exchange => exact fun hn ↦ absurd hn (node _)
  case destination => exact fun hx ↦ absurd hx (fragment _)
  case orphan => exact fun hx ↦ absurd hx (fragment _)

namespace Sound

theorem empty (hnodes : s.nodes = []) (hfragments : s.fragments = []) : s.Sound [] [] := by
  have node (i : NodeId) {n : Node} : s.node? i ≠ some n := node?_ne_some hnodes i
  have fragment (f : FragmentId) {x : Fragment} : s.fragment? f ≠ some x :=
    fragment?_ne_some hfragments f
  constructor
  case coherent => exact .empty hnodes hfragments
  case untabled => exact fun hn ↦ absurd hn (node _)
  case mem_loose =>
    intro i
    apply iff_of_false List.not_mem_nil
    rintro ⟨⟨n, hn, _⟩, _⟩
    exact node i hn
  case nodup_loose => exact List.nodup_nil
  case inner => exact fun hn ↦ absurd hn (node _)
  case mem_opens =>
    intro f
    apply iff_of_false List.not_mem_nil
    rintro ⟨x, hx, _⟩
    exact fragment f hx
  case nodup_opens => exact List.nodup_nil
  case root => exact fun hx ↦ absurd hx (fragment _)

/-- Below a loose node, no node down to the exchanges belongs to a fragment. -/
theorem owned (h : s.Sound loose opens) {r : NodeId} (hr : r ∈ loose) : s.Owned r none := by
  intro i n hin
  induction hin generalizing n with
  | refl =>
    intro hn
    obtain ⟨⟨m, hm, hfree⟩, _⟩ := h.mem_loose.mp hr
    obtain rfl := Option.some.inj (hn.symm.trans hm)
    rw [Node.owner?, if_pos hfree]
  | tail _ hstep ih =>
    intro hn
    obtain ⟨m, hm, hc⟩ := hstep
    have hfree := ih m hm
    rw [Node.owner?, ite_eq_left_iff] at hfree ⊢
    intro hne
    have hm' : m.fragment ≠ .invalid := fun hm' ↦ hne ((h.inner hm hc hn).mp hm')
    cases hfree hm'

/-- The root of a fragment is not loose. -/
theorem ne_root (h : s.Sound loose opens) {i : NodeId} (hi : i ∈ loose) {f : FragmentId}
    {x : Fragment} (hx : s.fragment? f = some x) : x.root ≠ i := by
  rintro rfl
  obtain ⟨⟨n, hn, hfree⟩, _⟩ := h.mem_loose.mp hi
  obtain ⟨m, hm, rfl⟩ := h.coherent.root hx
  obtain rfl := Option.some.inj (hn.symm.trans hm)
  exact h.coherent.ordered.ne_invalid hx hfree

section Grow

variable {n₀ : Node}

theorem mem_loose_of_grown (h : s.Sound loose opens) (hg : s.Grown s' n₀)
    (hloose : ∀ i, i ∈ loose' ↔ i ∈ loose ∧ i ∉ n₀.children) {i : NodeId} :
    i ∈ s.nextNode :: loose' ↔
      (∃ n, s'.node? i = some n ∧ n.fragment = .invalid) ∧ ∀ p, ¬s'.Child p i := by
  have ho := h.coherent.ordered
  have hchild {p : NodeId} := hg.child_iff ho (p := p) (c := i)
  rw [List.mem_cons, hloose]
  constructor
  · rintro (rfl | ⟨hi, hout⟩)
    · exact ⟨⟨n₀, hg.new, hg.unplaced⟩, hg.not_child_new h.coherent⟩
    · obtain ⟨⟨n, hn, hfree⟩, hparent⟩ := h.mem_loose.mp hi
      refine ⟨⟨n, hg.old ho hn, hfree⟩, fun p hp ↦ ?_⟩
      rcases hchild.mp hp with hp | ⟨_, hc⟩
      · exact hparent p hp
      · exact hout hc
  · rintro ⟨⟨n, hn, hfree⟩, hparent⟩
    rcases hg.node_cases hn with ⟨rfl, _⟩ | hn
    · exact .inl rfl
    · refine .inr ⟨h.mem_loose.mpr ⟨⟨n, hn, hfree⟩, fun p hp ↦ ?_⟩, fun hc ↦ ?_⟩
      · exact hparent p (hchild.mpr (.inl hp))
      · exact hparent _ (hchild.mpr (.inr ⟨rfl, hc⟩))

/-- The root of a fragment that still feeds no exchange is not a child of the new node: such a child
is loose or the root of the fragment that the new node reads. -/
theorem root_of_grown (h : s.Sound loose opens) (hg : s.Grown s' n₀)
    (hinner : ∀ c ∈ n₀.inner, c ∈ loose) {f : FragmentId} {x' : Fragment}
    (hx' : s'.fragment? f = some x') (hdest : x'.destination = none) (p : NodeId) :
    ¬s'.Child p x'.root := by
  intro hp
  obtain ⟨x, hx, ⟨_, _, rfl⟩ | ⟨hinput, rfl⟩⟩ := hg.fragment_cases hx'
  · cases hdest
  · rcases (hg.child_iff h.coherent.ordered).mp hp with hp | ⟨_, hc⟩
    · exact h.root hx hdest p hp
    · cases hinput' : n₀.input? with
      | some g =>
        obtain ⟨y, hy, _, hchildren⟩ := hg.input hinput'
        rw [hchildren, List.mem_singleton] at hc
        have hfg := h.coherent.eq_of_root hx hy hc
        rw [hinput', hfg] at hinput
        exact hinput rfl
      | none =>
        have hinner' : n₀.inner = n₀.children := by simp [Node.inner, Node.isExchange, hinput']
        exact h.ne_root (hinner _ (hinner'.symm ▸ hc)) hx rfl

theorem grow (h : s.Sound loose opens) (hg : s.Grown s' n₀)
    (htable : ∀ join, n₀.kind = .join join → join.table.isValid = false)
    (hinner : ∀ c ∈ n₀.inner, c ∈ loose)
    (hloose : ∀ i, i ∈ loose' ↔ i ∈ loose ∧ i ∉ n₀.children) (hnodup : loose'.Nodup)
    (hopens : ∀ f, f ∈ opens' ↔ f ∈ opens ∧ n₀.input? ≠ some f) (hnodup' : opens'.Nodup) :
    s'.Sound (s.nextNode :: loose') opens' where
  coherent := hg.coherent h.coherent
  untabled {i n join} hn hjoin := by
    rcases hg.node_cases hn with ⟨_, rfl⟩ | hn
    · exact htable join hjoin
    · exact h.untabled hn hjoin
  mem_loose := h.mem_loose_of_grown hg hloose
  nodup_loose := by
    apply List.nodup_cons.mpr ⟨fun hin ↦ ?_, hnodup⟩
    obtain ⟨⟨n, hn, _⟩, _⟩ := h.mem_loose.mp ((hloose _).mp hin).1
    exact h.coherent.ordered.nextNode_ne hn rfl
  inner {p c m n} hm hc hn := by
    have ho := h.coherent.ordered
    rcases hg.node_cases hm with ⟨_, rfl⟩ | hm
    · obtain ⟨⟨n', hn', hfree⟩, _⟩ := h.mem_loose.mp (hinner c hc)
      obtain rfl := Option.some.inj (hn.symm.trans (hg.old ho hn'))
      exact iff_of_true hg.unplaced hfree
    · obtain ⟨n', hn'⟩ := h.coherent.tree.child ⟨m, hm, Node.inner_subset m hc⟩
      obtain rfl := Option.some.inj (hn.symm.trans (hg.old ho hn'))
      exact h.inner hm hc hn'
  mem_opens {f} := by
    obtain ⟨partitioning, hfragment⟩ := hg.fragment
    rw [hopens, h.mem_opens, hfragment]
    by_cases hf : n₀.input? = some f
    · rw [if_pos hf]
      constructor
      · exact fun hno ↦ absurd hf hno.2
      · rintro ⟨x', hx', hdest⟩
        obtain ⟨x, _, rfl⟩ := Option.map_eq_some_iff.mp hx'
        cases hdest
    · rw [if_neg hf]
      exact and_iff_left hf
  nodup_opens := hnodup'
  root hx' hdest := h.root_of_grown hg hinner hx' hdest

end Grow

theorem add (h : s.Sound loose opens) {node : NodeId → Node} {rest : List NodeId}
    (hloose : loose = (node s.nextNode).children ++ rest) (hid : (node s.nextNode).id = s.nextNode)
    (hnew : (node s.nextNode).Unplaced) : (s.add node).2.Sound (s.nextNode :: rest) opens := by
  have ho := h.coherent.ordered
  obtain ⟨hchildren, hrest, hdisjoint⟩ := List.nodup_append.mp (hloose ▸ h.nodup_loose)
  have member {c : NodeId} (hc : c ∈ (node s.nextNode).children) : c ∈ loose :=
    hloose ▸ List.mem_append_left _ hc
  have hgrown : s.Grown (s.add node).2 (node s.nextNode) := by
    refine ⟨ho.add hid, ho.node?_add hid, ⟨.unpartitioned, ?_⟩, ?_, hchildren, hnew.fragment, ?_⟩
    · intro f
      rw [hnew.input, if_neg (by simp)]
      rfl
    · intro c hc
      obtain ⟨⟨n, hn, _⟩, hparent⟩ := h.mem_loose.mp (member hc)
      exact ⟨⟨n, hn⟩, hparent⟩
    · intro f hf
      rw [hnew.input] at hf
      cases hf
  refine h.grow hgrown (fun _ hjoin ↦ hnew.table hjoin) ?_ ?_ hrest ?_ h.nodup_opens
  · intro c hc
    exact member (Node.inner_subset _ hc)
  · intro i
    rw [hloose, List.mem_append]
    constructor
    · intro hi
      exact ⟨.inr hi, fun hc ↦ hdisjoint i hc i hi rfl⟩
    · rintro ⟨hc | hi, hout⟩
      · exact absurd hc hout
      · exact hi
  · intro f
    rw [hnew.input]
    simp

/-- An exchange is a node above the root of the fragment that it reads. -/
theorem grown_of_addExchange (h : s.Sound loose opens) {f : FragmentId}
    {partitioning : Partitioning} {e : NodeId} (he : s.addExchange f partitioning = .ok (e, s')) :
    e = s.nextNode ∧ ∃ n₀ x, s.Grown s' n₀ ∧ n₀.kind = .exchange f ∧ s.fragment? f = some x ∧
      n₀.children = [x.root] ∧ s'.fragment? f = some (fed f s.nextNode partitioning x) := by
  have ho := h.coherent.ordered
  obtain ⟨rfl, x, n, hx, hnone, hn, rfl⟩ := addExchange_eq_ok.mp he
  have hmodify := fragment?_modifyFragment (g := fed f s.nextNode partitioning) (fun _ ↦ rfl)
    (s.add (exchangeOver f x n)).2
  have hgrown : s.Grown ((s.add (exchangeOver f x n)).2.modifyFragment f
      (fed f s.nextNode partitioning)) (exchangeOver f x n s.nextNode) := by
    refine ⟨?_, ho.node?_add rfl, ⟨partitioning, fun g ↦ ?_⟩, ?_, List.nodup_singleton _, rfl, ?_⟩
    · have hadd : (s.add (exchangeOver f x n)).2.Ordered := ho.add rfl
      exact hadd.modifyFragment (g := fed f s.nextNode partitioning) (fun _ ↦ rfl) f
    · have hinput : (exchangeOver f x n s.nextNode).input? = some f := rfl
      apply (hmodify f g).trans
      rw [fragment?_add, hinput]
      by_cases hg : g = f
      · rw [if_pos hg, hg, if_pos rfl]
      · rw [if_neg hg, if_neg (by simpa using Ne.symm hg)]
    · intro c hc
      rw [List.mem_singleton.mp hc]
      exact ⟨⟨n, hn⟩, h.root hx hnone⟩
    · intro g hg
      obtain rfl := Option.some.inj hg
      exact ⟨x, hx, hnone, rfl⟩
  refine ⟨rfl, _, x, hgrown, rfl, hx, rfl, (hmodify f f).trans ?_⟩
  rw [if_pos rfl, fragment?_add, hx]
  rfl

theorem exchange (h : s.Sound loose opens) {f : FragmentId} {rest : List FragmentId}
    (hopens : opens = f :: rest) {partitioning : Partitioning} {e : NodeId}
    (he : s.addExchange f partitioning = .ok (e, s')) : s'.Sound (e :: loose) rest := by
  obtain ⟨rfl, n₀, x, hgrown, hkind, hx, hchildren, _⟩ := h.grown_of_addExchange he
  obtain ⟨hf, hrest⟩ := List.nodup_cons.mp (hopens ▸ h.nodup_opens)
  refine h.grow hgrown ?_ ?_ ?_ h.nodup_loose ?_ hrest
  · intro join hjoin
    cases hkind.symm.trans hjoin
  · intro c hc
    rw [Node.inner_of_exchange hkind] at hc
    cases hc
  · intro i
    rw [hchildren, List.mem_singleton]
    exact ⟨fun hi ↦ ⟨hi, fun hc ↦ h.ne_root hi hx hc.symm⟩, And.left⟩
  · intro g
    rw [hopens, Node.input?_eq_some.mpr hkind, List.mem_cons]
    constructor
    · intro hg
      refine ⟨.inr hg, ?_⟩
      rintro ⟨⟩
      exact hf hg
    · rintro ⟨rfl | hg, hne⟩
      · exact absurd rfl hne
      · exact hg

section Cut

variable {x : Fragment} {inputs : List FragmentId} {rest : List NodeId}

/-- A cut at a loose node parts no node from those of its children that belong with it. -/
theorem reach_iff_of_inner (h : s.Sound loose opens) {r : NodeId} (hparent : ∀ p, ¬s.Child p r)
    {p c : NodeId} (hstep : s.Step Node.inner p c) :
    s.Reach Node.inner r p ↔ s.Reach Node.inner r c := by
  constructor
  · exact fun hp ↦ hp.tail hstep
  · intro hin
    rcases Relation.ReflTransGen.cases_tail hin with rfl | ⟨q, hq, hqc⟩
    · exact absurd (hstep.mono Node.inner_subset) (hparent p)
    · rwa [h.coherent.tree.unique (hstep.mono Node.inner_subset) (hqc.mono Node.inner_subset)]

theorem mem_loose_of_recut (h : s.Sound loose opens) (hr : s.Recut s' x inputs)
    (hloose : loose = x.root :: rest) {i : NodeId} :
    i ∈ rest ↔ (∃ n, s'.node? i = some n ∧ n.fragment = .invalid) ∧ ∀ p, ¬s'.Child p i := by
  rw [child_of_plan hr.plan]
  constructor
  · intro hi
    obtain ⟨⟨n, hn, hfree⟩, hparent⟩ := h.mem_loose.mp (hloose ▸ List.mem_cons_of_mem _ hi)
    have hout : ¬s.Reach Node.inner x.root i := by
      intro hin
      rcases Relation.ReflTransGen.cases_tail hin with rfl | ⟨p, _, hp⟩
      · exact (List.nodup_cons.mp (hloose ▸ h.nodup_loose)).1 hi
      · exact hparent p (hp.mono Node.inner_subset)
    exact ⟨⟨n, (hr.kept hout).trans hn, hfree⟩, hparent⟩
  · rintro ⟨⟨n', hn', hfree⟩, hparent⟩
    obtain ⟨n, hn, ⟨_, rfl⟩ | ⟨hout, rfl⟩⟩ := hr.node_cases hn'
    · exact absurd hfree (hr.ordered.ne_invalid hr.cut)
    · have hi := h.mem_loose.mpr ⟨⟨_, hn, hfree⟩, hparent⟩
      rcases List.mem_cons.mp (hloose ▸ hi) with rfl | hi
      · exact absurd .refl hout
      · exact hi

theorem inner_of_recut (h : s.Sound loose opens) (hr : s.Recut s' x inputs)
    (hparent : ∀ p, ¬s.Child p x.root) {p c : NodeId} {m' n' : Node} (hm' : s'.node? p = some m')
    (hc : c ∈ m'.inner) (hn' : s'.node? c = some n') :
    m'.fragment = .invalid ↔ n'.fragment = .invalid := by
  obtain ⟨m, hm, ⟨hp, rfl⟩ | ⟨hp, rfl⟩⟩ := hr.node_cases hm' <;>
    obtain ⟨n, hn, ⟨hin, rfl⟩ | ⟨hout, rfl⟩⟩ := hr.node_cases hn'
  · rfl
  · exact absurd ((h.reach_iff_of_inner hparent ⟨m, hm, hc⟩).mp hp) hout
  · exact absurd ((h.reach_iff_of_inner hparent ⟨_, hm, hc⟩).mpr hin) hp
  · exact h.inner hm hc hn

theorem mem_opens_of_recut (h : s.Sound loose opens) (hr : s.Recut s' x inputs)
    {g : FragmentId} :
    g ∈ x.id :: opens ↔ ∃ y, s'.fragment? g = some y ∧ y.destination = none := by
  rw [List.mem_cons, h.mem_opens]
  constructor
  · rintro (rfl | ⟨y, hy, hdest⟩)
    · exact ⟨_, hr.cut, Fragment.rehomed_destination.trans hr.destination⟩
    · exact ⟨_, hr.parted.fragment hy, Fragment.rehomed_destination.trans hdest⟩
  · rintro ⟨y', hy', hdest⟩
    rcases hr.parted.fragment_cases hy' with ⟨rfl, _⟩ | ⟨y, hy, _, rfl⟩
    · exact .inl rfl
    · exact .inr ⟨y, hy, Fragment.rehomed_destination.symm.trans hdest⟩

theorem cut (h : s.Sound loose opens) {root : NodeId} (hloose : loose = root :: rest)
    {partitioning : Partitioning} {f : FragmentId}
    (hf : s.createFragment root partitioning = .ok (f, s')) : s'.Sound rest (f :: opens) := by
  have hmem : root ∈ loose := hloose ▸ List.mem_cons_self
  obtain ⟨_, hparent⟩ := h.mem_loose.mp hmem
  obtain ⟨inputs, hr, hnodup, hinputs⟩ := h.coherent.recut_of_free (h.owned hmem) hf
  constructor
  case coherent =>
    exact hr.coherent h.coherent (h.owned hmem) (fun _ _ hy ↦ h.ne_root hmem hy) hnodup hinputs
  case untabled =>
    intro i n' join hn' hjoin
    obtain ⟨n, hn, ⟨_, rfl⟩ | ⟨_, rfl⟩⟩ := hr.node_cases hn'
    · exact h.untabled (n := n) hn hjoin
    · exact h.untabled hn hjoin
  case mem_loose => exact h.mem_loose_of_recut hr hloose
  case nodup_loose => exact (List.nodup_cons.mp (hloose ▸ h.nodup_loose)).2
  case inner => exact h.inner_of_recut hr hparent
  case mem_opens => exact h.mem_opens_of_recut hr
  case nodup_opens =>
    apply List.nodup_cons.mpr ⟨fun hin ↦ ?_, h.nodup_opens⟩
    obtain ⟨y, hy, _⟩ := h.mem_opens.mp hin
    exact hr.parted.id_ne hy rfl
  case root =>
    intro g y' hy' hdest p hp
    rw [child_of_plan hr.plan] at hp
    rcases hr.parted.fragment_cases hy' with ⟨rfl, rfl⟩ | ⟨y, hy, _, rfl⟩
    · rw [Fragment.rehomed_root] at hp
      exact hparent p hp
    · rw [Fragment.rehomed_root] at hp
      exact h.root hy (Fragment.rehomed_destination.symm.trans hdest) p hp

end Cut

/-- Nodes may change but for their kinds and what ties them. -/
theorem congr (h : s.Sound loose opens) (hordered : s'.Ordered)
    (hnode : ∀ i, (s'.node? i).map Node.place = (s.node? i).map Node.place)
    (hfragment : ∀ f, (s'.fragment? f).map Fragment.links = (s.fragment? f).map Fragment.links) :
    s'.Sound loose opens := by
  have halike : s.Alike s' :=
    ⟨fun i ↦ map_eq_of_map_eq (fun _ _ ↦ Node.place_links) (hnode i), hfragment⟩
  have node {i : NodeId} {n' : Node} (hn' : s'.node? i = some n') :
      ∃ n, s.node? i = some n ∧ n.place = n'.place :=
    exists_of_map_eq (hnode i).symm hn'
  refine ⟨halike.coherent h.coherent hordered, ?_, ?_, h.nodup_loose, ?_, ?_, h.nodup_opens, ?_⟩
  · intro i n' join hn' hjoin
    obtain ⟨n, hn, heq⟩ := node hn'
    exact h.untabled hn ((Node.place_kind heq).trans hjoin)
  · intro i
    rw [halike.child, h.mem_loose]
    refine and_congr_left fun _ ↦ ⟨?_, ?_⟩
    · rintro ⟨n, hn, hfree⟩
      obtain ⟨n', hn', heq⟩ := halike.node hn
      exact ⟨n', hn', (Node.links_fragment heq).trans hfree⟩
    · rintro ⟨n', hn', hfree⟩
      obtain ⟨n, hn, heq⟩ := halike.symm.node hn'
      exact ⟨n, hn, (Node.links_fragment heq).trans hfree⟩
  · intro p c m' n' hm' hc hn'
    obtain ⟨m, hm, heq⟩ := node hm'
    obtain ⟨n, hn, heq'⟩ := node hn'
    rw [← Node.place_inner heq] at hc
    rw [← Node.place_fragment heq, ← Node.place_fragment heq']
    exact h.inner hm hc hn
  · intro f
    rw [h.mem_opens]
    constructor
    · rintro ⟨x, hx, hdest⟩
      obtain ⟨x', hx', heq⟩ := halike.fragment hx
      exact ⟨x', hx', (Fragment.links_destination heq).trans hdest⟩
    · rintro ⟨x', hx', hdest⟩
      obtain ⟨x, hx, heq⟩ := halike.symm.fragment hx'
      exact ⟨x, hx, (Fragment.links_destination heq).trans hdest⟩
  · intro f x' hx' hdest p hp
    obtain ⟨x, hx, heq⟩ := halike.symm.fragment hx'
    rw [halike.child, ← Fragment.links_root heq] at hp
    exact h.root hx ((Fragment.links_destination heq).trans hdest) p hp

theorem setSink (h : s.Sound loose opens) {f : FragmentId} (hf : f ∈ opens) (kind : SinkKind) :
    (s.setSink f kind).Sound loose opens := by
  apply h.congr (h.coherent.ordered.setSink f kind) (fun _ ↦ rfl)
  intro g
  rw [fragment?_setSink]
  split
  · rename_i hg
    obtain ⟨x, hx, hdest⟩ := h.mem_opens.mp hf
    rw [hg, hx, Option.map_some, Option.map_some, Option.map_some, Fragment.links,
      Fragment.links, hdest]
    rfl
  · rfl

theorem estimate (h : s.Sound loose opens) {g : Node → Node} (hid : ∀ n, (g n).id = n.id)
    (hg : ∀ n, (g n).place = n.place) (i : NodeId) : (s.modifyNode i g).Sound loose opens := by
  refine h.congr (h.coherent.ordered.modifyNode hid i) (fun j ↦ ?_) (fun _ ↦ rfl)
  rw [node?_modifyNode hid]
  split
  · rw [Option.map_map]
    congr 1
    funext n
    exact hg n
  · rfl

theorem perm (h : s.Sound loose opens) (hloose : loose.Perm loose') (hopens : opens.Perm opens') :
    s.Sound loose' opens' where
  coherent := h.coherent
  untabled := h.untabled
  mem_loose := hloose.mem_iff.symm.trans h.mem_loose
  nodup_loose := hloose.nodup h.nodup_loose
  inner := h.inner
  mem_opens := hopens.mem_iff.symm.trans h.mem_opens
  nodup_opens := hopens.nodup h.nodup_opens
  root := h.root

end Sound

theorem Built.sound (h : s.Built loose opens) : s.Sound loose opens := by
  induction h with
  | empty hnodes hfragments => exact .empty hnodes hfragments
  | add _ hid hnew ih => exact ih.add rfl hid hnew
  | cut _ hf ih => exact ih.cut rfl hf
  | exchange _ he ih => exact ih.exchange rfl he
  | setSink _ hf ih => exact ih.setSink hf _
  | estimate _ hid hkind hchildren hfragment ih =>
    refine ih.estimate hid (fun n ↦ ?_) _
    rw [Node.place, Node.place, hkind, hchildren, hfragment]
  | environment _ hnodes hfragments ih =>
    refine ih.congr ⟨?_, ?_⟩ (fun i ↦ ?_) (fun f ↦ ?_)
    · rw [hnodes]
      exact ih.coherent.ordered.nodes
    · rw [hfragments]
      exact ih.coherent.ordered.fragments
    · rw [node?, node?, hnodes]
    · rw [fragment?, fragment?, hfragments]
  | perm _ hloose hopens ih => exact ih.perm hloose hopens

namespace WellFormed

variable {root : FragmentId}

theorem coherent (h : s.WellFormed root) : s.Coherent := (Built.sound h).coherent

theorem untabled (h : s.WellFormed root) {i : NodeId} {n : Node} {join : Join}
    (hn : s.node? i = some n) (hjoin : n.kind = .join join) : join.table.isValid = false :=
  (Built.sound h).untabled hn hjoin

/-- Only the fragment at the top feeds no exchange. -/
theorem destination (h : s.WellFormed root) {f : FragmentId} :
    f = root ↔ ∃ x, s.fragment? f = some x ∧ x.destination = none := by
  rw [← (Built.sound h).mem_opens, List.mem_singleton]

theorem root_parentless (h : s.WellFormed root) {x : Fragment}
    (hx : s.fragment? root = some x) (p : NodeId) : ¬s.Child p x.root := by
  obtain ⟨y, hy, hdest⟩ := h.destination.mp rfl
  obtain rfl := Option.some.inj (hx.symm.trans hy)
  exact (Built.sound h).root hx hdest p

/-- Every node belongs to a fragment. -/
theorem owned (h : s.WellFormed root) {i : NodeId} {n : Node} (hn : s.node? i = some n) :
    n.fragment ≠ .invalid := by
  have hs := Built.sound h
  refine h.coherent.tree.upward h.coherent.ordered (P := fun i ↦ ∀ n, s.node? i = some n →
    n.fragment ≠ .invalid) ?_ hn n hn
  intro i ih n hn hfree
  have hparent : ∃ p, s.Child p i := by
    by_contra hno
    exact List.not_mem_nil (hs.mem_loose.mpr ⟨⟨n, hn, hfree⟩, not_exists.mp hno⟩)
  obtain ⟨p, m, hm, hc⟩ := hparent
  have howned := ih p ⟨m, hm, hc⟩ m hm
  cases hinput : m.input? with
  | some f =>
    obtain ⟨x, _, _, hx, hchildren, _⟩ := h.coherent.exchange hm (Node.input?_eq_some.mp hinput)
    rw [hchildren, List.mem_singleton] at hc
    obtain ⟨n', hn', rfl⟩ := h.coherent.root hx
    rw [← hc, hn] at hn'
    obtain rfl := Option.some.inj hn'
    exact h.coherent.ordered.ne_invalid hx hfree
  | none =>
    have hinner : m.inner = m.children := by simp [Node.inner, Node.isExchange, hinput]
    exact howned ((hs.inner hm (hinner.symm ▸ hc) hn).mpr hfree)

/-- All nodes lie below the top. -/
theorem below (h : s.WellFormed root) {x : Fragment} (hx : s.fragment? root = some x)
    {i : NodeId} {n : Node} (hn : s.node? i = some n) : s.Below x.root i := by
  refine h.coherent.tree.upward h.coherent.ordered (P := fun i ↦ ∀ n, s.node? i = some n →
    s.Below x.root i) ?_ hn n hn
  intro i ih n hn
  have step {p : NodeId} (hp : s.Child p i) : s.Below x.root i := by
    have hp' := hp
    obtain ⟨m, hm, _⟩ := hp'
    exact .tail (ih p hp m hm) hp
  obtain ⟨y, hy, hi⟩ := h.coherent.connected hn (h.owned hn)
  rcases hi with rfl | ⟨p, m, hm, him, _⟩
  · cases hdest : y.destination with
    | none =>
      have hroot := h.destination.mpr ⟨y, hy, hdest⟩
      rw [hroot, hx] at hy
      rw [Option.some.inj hy]
      exact .refl
    | some e =>
      obtain ⟨_, _, _, hchild, _⟩ := h.coherent.fed hy hdest
      exact step hchild
  · exact step ⟨m, hm, him⟩

end WellFormed

end Session

end QueryPlanning
