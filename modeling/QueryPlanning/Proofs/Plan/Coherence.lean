import QueryPlanning.Proofs.Plan.FragmentTree
import QueryPlanning.Proofs.Plan.NodeTree

/-!
# Coherent sessions

A session is coherent if its nodes form trees, the nodes of every fragment hang together below its
root, and the fragments are tied to the exchanges: the fragment that an exchange receives rows from
begins at the exchange's child, sends its rows there, and has for parent the fragment of the
exchange. Nodes that no fragment executes yet are allowed, so sessions are coherent while a plan is
being built.
-/

namespace QueryPlanning

namespace Node

/-- The node as it was added, before any fragment or join table was assigned. -/
def plain (n : Node) : Node :=
  { n with
    fragment := .invalid
    kind := match n.kind with
      | .join join => .join { join with table := .invalid }
      | kind => kind }

@[simp]
theorem plain_id (n : Node) : n.plain.id = n.id := rfl

@[simp]
theorem plain_children (n : Node) : n.plain.children = n.children := rfl

theorem plain_kind_exchange {n : Node} {f : FragmentId} :
    n.plain.kind = .exchange f ↔ n.kind = .exchange f := by
  unfold plain
  cases n.kind <;> simp

theorem isSome_join?_plain (n : Node) : n.plain.join?.isSome = n.join?.isSome := by
  unfold join? plain
  cases n.kind <;> rfl

theorem plain_inner (n : Node) : n.plain.inner = n.inner := by
  unfold inner isExchange input? plain
  cases n.kind <;> rfl

theorem plain_probed (n : Node) : n.plain.probed = n.probed := by
  unfold probed plain
  cases n.kind <;> rfl

theorem plain_skipped (n : Node) : n.plain.skipped = n.skipped := by
  unfold skipped plain
  cases n.kind <;> rfl

/-- The fragment that executes the node, if there is one yet. -/
def owner? (n : Node) : Option FragmentId :=
  if n.fragment = .invalid then none else some n.fragment

theorem owner?_eq_some {n : Node} {f : FragmentId} :
    n.owner? = some f ↔ n.fragment = f ∧ f ≠ .invalid := by
  unfold owner?
  split
  · rename_i h
    rw [h]
    constructor
    · rintro ⟨⟩
    · rintro ⟨rfl, hf⟩
      exact absurd rfl hf
  · rename_i h
    rw [Option.some.injEq]
    constructor
    · rintro rfl
      exact ⟨rfl, h⟩
    · exact And.left

/-- What ties a node to other nodes and to fragments. -/
def links (n : Node) : Option FragmentId × List NodeId × FragmentId :=
  (n.input?, n.children, n.fragment)

section Links

variable {m n : Node} (h : m.links = n.links)

include h

theorem links_input? : m.input? = n.input? := congrArg (·.1) h

theorem links_children : m.children = n.children := congrArg (·.2.1) h

theorem links_fragment : m.fragment = n.fragment := congrArg (·.2.2) h

end Links

end Node

namespace Fragment

/-- What ties a fragment to nodes and to other fragments. The sink of a fragment that feeds no
exchange does not. -/
def links (x : Fragment) : NodeId × Option NodeId × Option FragmentId × List FragmentId ×
    Option (FragmentId × SinkKind) :=
  (x.root, x.destination, x.parent, x.children,
    x.destination.bind fun _ ↦ x.sink.map fun k ↦ (k.fragment, k.kind))

/-- What ties a fragment to other fragments. -/
def kin (x : Fragment) : Option FragmentId × List FragmentId := (x.parent, x.children)

section Links

variable {x y : Fragment} (h : x.links = y.links)

include h

theorem links_root : x.root = y.root := congrArg (·.1) h

theorem links_destination : x.destination = y.destination := congrArg (·.2.1) h

theorem links_parent : x.parent = y.parent := congrArg (·.2.2.1) h

theorem links_children : x.children = y.children := congrArg (·.2.2.2.1) h

theorem links_stream {f : FragmentId} {kind : SinkKind} {memory : Int} {e : NodeId}
    (hdest : y.destination = some e) (hsink : y.sink = some ⟨f, kind, memory⟩) :
    ∃ memory', x.sink = some ⟨f, kind, memory'⟩ := by
  have hstream : (x.destination.bind fun _ ↦ x.sink.map fun k ↦ (k.fragment, k.kind)) =
      y.destination.bind fun _ ↦ y.sink.map fun k ↦ (k.fragment, k.kind) :=
    congrArg (·.2.2.2.2) h
  rw [links_destination h, hdest, hsink, Option.bind_some, Option.bind_some, Option.map_some,
    Option.map_eq_some_iff] at hstream
  obtain ⟨sink, hx, heq⟩ := hstream
  obtain ⟨rfl, rfl⟩ := Prod.mk.inj heq
  exact ⟨sink.memory, hx⟩

end Links

end Fragment

namespace Session

/-- The nodes of a session as they were added. -/
def plan (s : Session) : List Node := s.nodes.map Node.plain

variable {s s' : Session}

theorem node?_plain (h : s'.plan = s.plan) (i : NodeId) :
    (s'.node? i).map Node.plain = (s.node? i).map Node.plain := by
  have hplain (t : Session) : Numbered.get? Node.id t.plan i = (t.node? i).map Node.plain :=
    Numbered.get?_map Node.plain_id i
  rw [← hplain, ← hplain, h]

theorem exists_node?_of_plan (h : s'.plan = s.plan) {i : NodeId} {n : Node}
    (hn : s.node? i = some n) : ∃ n', s'.node? i = some n' ∧ n'.plain = n.plain :=
  exists_of_map_eq (node?_plain h i) hn

theorem next_of_plan {α : Type} {next : Node → α} (hnext : ∀ n, next n.plain = next n)
    (h : s'.plan = s.plan) (i : NodeId) : (s'.node? i).map next = (s.node? i).map next := by
  refine map_eq_of_map_eq (fun n n' heq ↦ ?_) (node?_plain h i)
  rw [← hnext n', heq, hnext n]

theorem step_of_plan {next : Node → List NodeId} (hnext : ∀ n, next n.plain = next n)
    (h : s'.plan = s.plan) : s'.Step next = s.Step next :=
  step_congr (next_of_plan hnext h)

theorem child_of_plan (h : s'.plan = s.plan) : s'.Child = s.Child :=
  step_of_plan Node.plain_children h

theorem below_of_plan (h : s'.plan = s.plan) : s'.Below = s.Below :=
  congrArg Relation.ReflTransGen (child_of_plan h)

theorem inside_of_plan (h : s'.plan = s.plan) : s'.Reach Node.inner = s.Reach Node.inner :=
  congrArg Relation.ReflTransGen (step_of_plan Node.plain_inner h)

theorem probed_of_plan (h : s'.plan = s.plan) : s'.Reach Node.probed = s.Reach Node.probed :=
  congrArg Relation.ReflTransGen (step_of_plan Node.plain_probed h)

theorem skipped_of_plan (h : s'.plan = s.plan) : s'.Skipped = s.Skipped := by
  unfold Skipped
  rw [step_of_plan Node.plain_skipped h, inside_of_plan h]

/-- Other sessions with the same plan have the joins that a walk finds, too. -/
theorem mem_joins_of_plan (h : s'.plan = s.plan) {r j : NodeId} {js : List NodeId}
    (hjs : s.joins r = .ok js) : j ∈ js ↔
      s'.Reach Node.probed r j ∧ ∃ n join, s'.node? j = some n ∧ n.kind = .join join := by
  have hjoin : (∃ n join, s'.node? j = some n ∧ n.kind = .join join) ↔
      ∃ n join, s.node? j = some n ∧ n.kind = .join join := by
    have mono {s s' : Session} (h : s'.plan = s.plan) :
        (∃ n join, s.node? j = some n ∧ n.kind = .join join) →
          ∃ n join, s'.node? j = some n ∧ n.kind = .join join := by
      rintro ⟨n, join, hn, hkind⟩
      obtain ⟨n', hn', hplain⟩ := exists_node?_of_plan h hn
      have hsome : n'.join?.isSome = true := by
        rw [← Node.isSome_join?_plain, hplain, Node.isSome_join?_plain,
          Node.join?_eq_some.mpr hkind]
        rfl
      obtain ⟨join', hjoin'⟩ := Option.isSome_iff_exists.mp hsome
      exact ⟨n', join', hn', Node.join?_eq_some.mp hjoin'⟩
    exact ⟨mono h.symm, mono h⟩
  rw [mem_joins hjs, probed_of_plan h, hjoin]

theorem Treelike.of_plan (ht : s.Treelike) (h : s'.plan = s.plan) : s'.Treelike :=
  ht.congr (next_of_plan Node.plain_children h)

/-! ## Coherence -/

structure Coherent (s : Session) : Prop where
  ordered : s.Ordered
  tree : s.Treelike
  linked : s.Linked
  root {f : FragmentId} {x : Fragment} :
    s.fragment? f = some x → ∃ n, s.node? x.root = some n ∧ n.fragment = f
  /-- A node of a fragment is its root or the child of another node of the fragment. -/
  connected {i : NodeId} {n : Node} :
    s.node? i = some n → n.fragment ≠ .invalid →
      ∃ x, s.fragment? n.fragment = some x ∧
        (i = x.root ∨ ∃ p m, s.node? p = some m ∧ i ∈ m.children ∧ m.fragment = n.fragment)
  exchange {e : NodeId} {n : Node} {f : FragmentId} :
    s.node? e = some n → n.kind = .exchange f →
      ∃ x partitioning memory, s.fragment? f = some x ∧ n.children = [x.root] ∧
        x.destination = some e ∧ x.sink = some ⟨f, .stream e partitioning, memory⟩ ∧
        x.parent = n.owner?
  destination {f : FragmentId} {x : Fragment} {e : NodeId} :
    s.fragment? f = some x → x.destination = some e →
      ∃ n, s.node? e = some n ∧ n.kind = .exchange f
  orphan {f : FragmentId} {x : Fragment} :
    s.fragment? f = some x → x.destination = none → x.parent = none

namespace Coherent

/-- A fragment lies below its root. -/
theorem below_root (h : s.Coherent) {i : NodeId} {n : Node} {x : Fragment}
    (hn : s.node? i = some n) (hx : s.fragment? n.fragment = some x) : s.Below x.root i := by
  refine h.tree.upward h.ordered (P := fun i ↦ ∀ n x, s.node? i = some n →
    s.fragment? n.fragment = some x → s.Below x.root i) ?_ hn n x hn hx
  intro i ih n x hn hx
  obtain ⟨y, hy, hi⟩ := h.connected hn (h.ordered.ne_invalid hx)
  obtain rfl := Option.some.inj (hx.symm.trans hy)
  rcases hi with rfl | ⟨p, m, hm, him, hfrag⟩
  · exact .refl
  · have hstep : s.Child p i := ⟨m, hm, him⟩
    exact .tail (ih p hstep m x hm (hfrag ▸ hx)) hstep

/-- Two fragments do not begin at the same node. -/
theorem eq_of_root (h : s.Coherent) {f g : FragmentId} {x y : Fragment}
    (hx : s.fragment? f = some x) (hy : s.fragment? g = some y) (hroot : x.root = y.root) :
    f = g := by
  obtain ⟨n, hn, rfl⟩ := h.root hx
  obtain ⟨m, hm, rfl⟩ := h.root hy
  rw [hroot, hm] at hn
  rw [Option.some.inj hn]

/-- With two nodes on a path, a fragment has all nodes between them. -/
theorem convex (h : s.Coherent) {e b : NodeId} {n : Node} {x : Fragment}
    (hn : s.node? e = some n) (hx : s.fragment? n.fragment = some x) (hbe : s.Below b e)
    (hb : s.Below x.root b) : ∃ m, s.node? b = some m ∧ m.fragment = n.fragment := by
  induction hbe generalizing n with
  | refl => exact ⟨n, hn, rfl⟩
  | @tail p e hbp hpe ih =>
    obtain ⟨y, hy, he⟩ := h.connected hn (h.ordered.ne_invalid hx)
    obtain rfl := Option.some.inj (hx.symm.trans hy)
    rcases he with rfl | ⟨q, m, hm, hem, hfrag⟩
    · rw [h.tree.antisymm (hbp.tail hpe) hb]
      exact ⟨n, hn, rfl⟩
    · obtain rfl := h.tree.unique hpe ⟨m, hm, hem⟩
      obtain ⟨m', hm', hfrag'⟩ := ih hm (hfrag ▸ hx)
      exact ⟨m', hm', hfrag'.trans hfrag⟩

/-- No node of a fragment is below the root of a fragment that begins below it. -/
theorem not_below_root (h : s.Coherent) {f g : FragmentId} {x y : Fragment}
    (hx : s.fragment? f = some x) (hy : s.fragment? g = some y) (hbelow : s.Below x.root y.root)
    (hne : g ≠ f) {i : NodeId} {n : Node} (hn : s.node? i = some n) (hfrag : n.fragment = f) :
    ¬s.Below y.root i := by
  intro hi
  subst hfrag
  obtain ⟨m, hm, hsame⟩ := h.convex hn hx hi hbelow
  obtain ⟨m', hm', rfl⟩ := h.root hy
  obtain rfl := Option.some.inj (hm.symm.trans hm')
  exact hne hsame

/-- A fragment with a node below the root of another one begins there, too. -/
theorem root_below (h : s.Coherent) {f : FragmentId} {x z : Fragment}
    (hz : s.fragment? f = some z) {i : NodeId} {n : Node} (hn : s.node? i = some n)
    (hx : s.fragment? n.fragment = some x) (hi : s.Below z.root i) : s.Below z.root x.root := by
  rcases h.tree.total hi (h.below_root hn hx) with hzx | hxz
  · exact hzx
  · by_cases hf : f = n.fragment
    · rw [hf, hx] at hz
      rw [Option.some.inj hz]
      exact .refl
    · exact absurd hi (h.not_below_root hx hz hxz hf hn rfl)

/-- A fragment from which an exchange receives rows sends them there. -/
theorem destination_eq (h : s.Coherent) {e : NodeId} {n : Node} {f : FragmentId} {x : Fragment}
    (hn : s.node? e = some n) (hkind : n.kind = .exchange f) (hx : s.fragment? f = some x) :
    x.destination = some e := by
  obtain ⟨y, _, _, hy, _, hdest, _⟩ := h.exchange hn hkind
  rwa [Option.some.inj (hx.symm.trans hy)]

/-- A fragment begins below the exchange to which it sends its rows. -/
theorem fed (h : s.Coherent) {f : FragmentId} {x : Fragment} {e : NodeId}
    (hx : s.fragment? f = some x) (hdest : x.destination = some e) :
    ∃ n, s.node? e = some n ∧ n.kind = .exchange f ∧ s.Child e x.root ∧ x.parent = n.owner? := by
  obtain ⟨n, hn, hkind⟩ := h.destination hx hdest
  obtain ⟨y, _, _, hy, hchildren, _, _, howner⟩ := h.exchange hn hkind
  obtain rfl := Option.some.inj (hx.symm.trans hy)
  refine ⟨n, hn, hkind, ⟨n, hn, ?_⟩, howner⟩
  rw [hchildren]
  exact List.mem_singleton_self _

/-- The parent of a fragment executes the exchange above its root. -/
theorem exists_exchange (h : s.Coherent) {f g : FragmentId} {x : Fragment}
    (hx : s.fragment? f = some x) (hparent : x.parent = some g) :
    ∃ e n, s.node? e = some n ∧ n.kind = .exchange f ∧ n.fragment = g ∧ s.Child e x.root := by
  cases hdest : x.destination with
  | none =>
    rw [h.orphan hx hdest] at hparent
    cases hparent
  | some e =>
    obtain ⟨n, hn, hkind, hchild, howner⟩ := h.fed hx hdest
    rw [hparent, eq_comm, Node.owner?_eq_some] at howner
    exact ⟨e, n, hn, hkind, howner.1, hchild⟩

/-- A child in the fragment of its parent is no child of an exchange. -/
theorem inner_of_same (h : s.Coherent) {p c : NodeId} {m n : Node} (hm : s.node? p = some m)
    (hc : c ∈ m.children) (hn : s.node? c = some n) (hsame : m.fragment = n.fragment)
    (hvalid : m.fragment ≠ .invalid) : c ∈ m.inner := by
  unfold Node.inner
  split
  · rename_i hexchange
    obtain ⟨f, hf⟩ := Option.isSome_iff_exists.mp hexchange
    obtain ⟨x, _, _, hx, hchildren, _, _, hparent⟩ := h.exchange hm (Node.input?_eq_some.mp hf)
    obtain ⟨n', hn', rfl⟩ := h.root hx
    rw [hchildren, List.mem_singleton] at hc
    rw [hc, hn'] at hn
    obtain rfl := Option.some.inj hn
    have howner : m.owner? = some m.fragment := Node.owner?_eq_some.mpr ⟨rfl, hvalid⟩
    have hcycle : s.parent? n'.fragment = some n'.fragment := by
      rw [parent?_eq hx, hparent, howner, hsame]
    obtain ⟨e, n, hn, _, hfragment, hchild⟩ :=
      h.exists_exchange hx ((parent?_eq hx).symm.trans hcycle)
    have hbelow := h.below_root hn (hfragment ▸ hx)
    exact absurd hbelow (h.tree.not_below_child hchild)
  · exact hc

/-- The child of an exchange is in the fragment that the exchange receives rows from. -/
theorem fragment_of_exchange (h : s.Coherent) {e c : NodeId} {m n : Node} {f : FragmentId}
    (hm : s.node? e = some m) (hkind : m.kind = .exchange f) (hc : c ∈ m.children)
    (hn : s.node? c = some n) : n.fragment = f := by
  obtain ⟨x, _, _, hx, hchildren, _⟩ := h.exchange hm hkind
  obtain ⟨n', hn', hfragment⟩ := h.root hx
  rw [hchildren, List.mem_singleton] at hc
  rw [← hc, hn] at hn'
  rw [Option.some.inj hn', hfragment]

/-- A node is in the fragment of its parent, in the one that its parent receives rows from, or at
the top of a fragment that feeds no exchange. -/
theorem edge (h : s.Coherent) {p c : NodeId} {m n : Node} (hm : s.node? p = some m)
    (hc : c ∈ m.children) (hn : s.node? c = some n) (hvalid : n.fragment ≠ .invalid) :
    m.fragment = n.fragment ∨ m.kind = .exchange n.fragment ∨
      ∃ x, s.fragment? n.fragment = some x ∧ x.root = c ∧ x.destination = none := by
  obtain ⟨x, hx, hroot⟩ := h.connected hn hvalid
  rcases hroot with rfl | ⟨q, m', hm', hc', hsame⟩
  · cases hdest : x.destination with
    | none => exact .inr (.inr ⟨x, hx, rfl, hdest⟩)
    | some e =>
      obtain ⟨m', hm', hkind, hchild, _⟩ := h.fed hx hdest
      obtain rfl := h.tree.unique ⟨m, hm, hc⟩ hchild
      obtain rfl := Option.some.inj (hm.symm.trans hm')
      exact .inr (.inl hkind)
  · obtain rfl := h.tree.unique ⟨m, hm, hc⟩ ⟨m', hm', hc'⟩
    obtain rfl := Option.some.inj (hm.symm.trans hm')
    exact .inl hsame

/-- A fragment begins properly below its parent's root. -/
theorem below_parent (h : s.Coherent) {f g : FragmentId} {x : Fragment}
    (hx : s.fragment? f = some x) (hparent : x.parent = some g) :
    ∃ y, s.fragment? g = some y ∧ s.Below y.root x.root ∧ x.root.val < y.root.val := by
  obtain ⟨e, n, hn, _, rfl, hchild⟩ := h.exists_exchange hx hparent
  obtain ⟨y, hy⟩ := h.linked.parent ((parent?_eq hx).trans hparent)
  have hbelow := h.below_root hn hy
  have hle := h.tree.le_of_below hbelow
  have hlt := h.tree.lt hchild
  exact ⟨y, hy, hbelow.tail hchild, by omega⟩

theorem acyclic (h : s.Coherent) : s.Acyclic := by
  have lt {f c : FragmentId} (hfc : Relation.TransGen (fun f c ↦ s.parent? c = some f) f c) :
      ∃ x y, s.fragment? f = some x ∧ s.fragment? c = some y ∧ y.root.val < x.root.val := by
    induction hfc with
    | single hc =>
      obtain ⟨y, hy, hparent⟩ := fragment?_of_parent? hc
      obtain ⟨x, hx, _, hlt⟩ := h.below_parent hy hparent
      exact ⟨x, y, hx, hy, hlt⟩
    | tail _ hc ih =>
      obtain ⟨x, z, hx, hz, hzx⟩ := ih
      obtain ⟨y, hy, hparent⟩ := fragment?_of_parent? hc
      obtain ⟨z', hz', _, hlt⟩ := h.below_parent hy hparent
      obtain rfl := Option.some.inj (hz.symm.trans hz')
      exact ⟨x, y, hx, hy, by omega⟩
  intro f hf
  obtain ⟨x, y, hx, hy, hlt⟩ := lt hf
  obtain rfl := Option.some.inj (hx.symm.trans hy)
  omega

theorem ne_parent (h : s.Coherent) {f g : FragmentId} {x : Fragment}
    (hx : s.fragment? f = some x) (hparent : x.parent = some g) : f ≠ g :=
  h.acyclic.ne_of_parent? ((parent?_eq hx).trans hparent)

end Coherent

/-- The fragments of two sessions have the same parents and children. -/
def SameKin (s s' : Session) : Prop :=
  ∀ f, (s'.fragment? f).map Fragment.kin = (s.fragment? f).map Fragment.kin

namespace SameKin

theorem symm (h : s.SameKin s') : s'.SameKin s := fun f ↦ (h f).symm

theorem of_fragments (h : ∀ f, s'.fragment? f = s.fragment? f) : s.SameKin s' :=
  fun f ↦ congrArg (Option.map Fragment.kin) (h f)

theorem modifyFragment {g : Fragment → Fragment} (hid : ∀ x, (g x).id = x.id)
    (hg : ∀ x, (g x).kin = x.kin) (f : FragmentId) : s.SameKin (s.modifyFragment f g) := by
  intro k
  rw [fragment?_modifyFragment hid]
  split
  · rw [Option.map_map]
    congr 1
    funext x
    exact hg x
  · rfl

theorem parent? (h : s.SameKin s') (c : FragmentId) : s'.parent? c = s.parent? c := by
  have hparents : (s'.fragment? c).map Fragment.parent = (s.fragment? c).map Fragment.parent :=
    map_eq_of_map_eq (fun _ _ ↦ congrArg Prod.fst) (h c)
  calc s'.parent? c = ((s'.fragment? c).map Fragment.parent).bind id := by
        rw [Option.bind_map]
        rfl
    _ = ((s.fragment? c).map Fragment.parent).bind id := by rw [hparents]
    _ = s.parent? c := by
        rw [Option.bind_map]
        rfl

theorem inTree (h : s.SameKin s') : s'.InTree = s.InTree := by
  unfold InTree
  simp only [h.parent?]

theorem linked (h : s.SameKin s') (hs : s.Linked) : s'.Linked where
  mem_children {f c x'} hx' := by
    obtain ⟨x, hx, heq⟩ := exists_of_map_eq (h.symm f) hx'
    have hchildren : x.children = x'.children := congrArg Prod.snd heq
    rw [h.parent?, ← hs.mem_children hx, hchildren]
  nodup {f x'} hx' := by
    obtain ⟨x, hx, heq⟩ := exists_of_map_eq (h.symm f) hx'
    have hchildren : x.children = x'.children := congrArg Prod.snd heq
    rw [← hchildren]
    exact hs.nodup hx
  parent {f c} hc := by
    rw [h.parent?] at hc
    obtain ⟨x, hx⟩ := hs.parent hc
    obtain ⟨x', hx', _⟩ := exists_of_map_eq (h f) hx
    exact ⟨x', hx'⟩

end SameKin

/-- Two sessions whose nodes and fragments are tied in the same way. -/
structure Alike (s s' : Session) : Prop where
  nodes (i : NodeId) : (s'.node? i).map Node.links = (s.node? i).map Node.links
  fragments (f : FragmentId) :
    (s'.fragment? f).map Fragment.links = (s.fragment? f).map Fragment.links

namespace Alike

theorem symm (h : s.Alike s') : s'.Alike s where
  nodes i := (h.nodes i).symm
  fragments f := (h.fragments f).symm

theorem trans {s'' : Session} (h : s.Alike s') (h' : s'.Alike s'') : s.Alike s'' where
  nodes i := (h'.nodes i).trans (h.nodes i)
  fragments f := (h'.fragments f).trans (h.fragments f)

theorem modifyFragment {g : Fragment → Fragment} (hid : ∀ x, (g x).id = x.id) {f : FragmentId}
    (hg : ∀ x, s.fragment? f = some x → (g x).links = x.links) :
    s.Alike (s.modifyFragment f g) := by
  refine ⟨fun j ↦ rfl, fun k ↦ ?_⟩
  rw [fragment?_modifyFragment hid]
  split
  · rename_i hk
    subst hk
    cases hx : s.fragment? k with
    | some x => exact congrArg some (hg x hx)
    | none => rfl
  · rfl

theorem node (h : s.Alike s') {i : NodeId} {n : Node} (hn : s.node? i = some n) :
    ∃ n', s'.node? i = some n' ∧ n'.links = n.links :=
  exists_of_map_eq (h.nodes i) hn

theorem fragment (h : s.Alike s') {f : FragmentId} {x : Fragment}
    (hx : s.fragment? f = some x) : ∃ x', s'.fragment? f = some x' ∧ x'.links = x.links :=
  exists_of_map_eq (h.fragments f) hx

theorem children (h : s.Alike s') (i : NodeId) :
    (s'.node? i).map Node.children = (s.node? i).map Node.children :=
  map_eq_of_map_eq (fun _ _ ↦ Node.links_children) (h.nodes i)

theorem child (h : s.Alike s') : s'.Child = s.Child := step_congr h.children

theorem sameKin (h : s.Alike s') : s.SameKin s' := fun f ↦
  map_eq_of_map_eq
    (fun _ _ heq ↦ Prod.ext (Fragment.links_parent heq) (Fragment.links_children heq))
    (h.fragments f)

theorem parent? (h : s.Alike s') (c : FragmentId) : s'.parent? c = s.parent? c :=
  h.sameKin.parent? c

theorem inTree (h : s.Alike s') : s'.InTree = s.InTree := h.sameKin.inTree

theorem linked (h : s.Alike s') (hs : s.Linked) : s'.Linked := h.sameKin.linked hs

theorem connected (h : s.Alike s') (hs : s.Coherent) {i : NodeId} {n' : Node}
    (hn' : s'.node? i = some n') (hvalid : n'.fragment ≠ .invalid) :
    ∃ x', s'.fragment? n'.fragment = some x' ∧ (i = x'.root ∨
      ∃ p m, s'.node? p = some m ∧ i ∈ m.children ∧ m.fragment = n'.fragment) := by
  obtain ⟨n, hn, heq⟩ := h.symm.node hn'
  rw [← Node.links_fragment heq] at hvalid ⊢
  obtain ⟨x, hx, hi⟩ := hs.connected hn hvalid
  obtain ⟨x', hx', heq'⟩ := h.fragment hx
  refine ⟨x', hx', ?_⟩
  rw [Fragment.links_root heq']
  apply hi.imp_right
  rintro ⟨p, m, hm, him, hfragment⟩
  obtain ⟨m', hm', heqm⟩ := h.node hm
  rw [← Node.links_children heqm] at him
  exact ⟨p, m', hm', him, (Node.links_fragment heqm).trans hfragment⟩

theorem exchange (h : s.Alike s') (hs : s.Coherent) {e : NodeId} {n' : Node} {f : FragmentId}
    (hn' : s'.node? e = some n') (hkind : n'.kind = .exchange f) :
    ∃ x' partitioning memory, s'.fragment? f = some x' ∧ n'.children = [x'.root] ∧
      x'.destination = some e ∧ x'.sink = some ⟨f, .stream e partitioning, memory⟩ ∧
      x'.parent = n'.owner? := by
  obtain ⟨n, hn, heq⟩ := h.symm.node hn'
  rw [← Node.input?_eq_some, ← Node.links_input? heq, Node.input?_eq_some] at hkind
  obtain ⟨x, partitioning, _, hx, hchildren, hdest, hsink, hparent⟩ := hs.exchange hn hkind
  obtain ⟨x', hx', heq'⟩ := h.fragment hx
  obtain ⟨memory, hsink'⟩ := Fragment.links_stream heq' hdest hsink
  refine ⟨x', partitioning, memory, hx', ?_, ?_, hsink', ?_⟩
  · rw [← Node.links_children heq, hchildren, Fragment.links_root heq']
  · rw [Fragment.links_destination heq', hdest]
  · rw [Fragment.links_parent heq', hparent, Node.owner?, Node.owner?, Node.links_fragment heq]

theorem coherent (h : s.Alike s') (hs : s.Coherent) (hordered : s'.Ordered) : s'.Coherent where
  ordered := hordered
  tree := hs.tree.congr h.children
  linked := h.linked hs.linked
  root {f x'} hx' := by
    obtain ⟨x, hx, heq⟩ := h.symm.fragment hx'
    obtain ⟨n, hn, rfl⟩ := hs.root hx
    obtain ⟨n', hn', heq'⟩ := h.node hn
    rw [← Fragment.links_root heq]
    exact ⟨n', hn', Node.links_fragment heq'⟩
  connected hn' hvalid := h.connected hs hn' hvalid
  exchange hn' hkind := h.exchange hs hn' hkind
  destination {f x' e} hx' hdest := by
    obtain ⟨x, hx, heq⟩ := h.symm.fragment hx'
    obtain ⟨n, hn, hkind⟩ := hs.destination hx ((Fragment.links_destination heq).trans hdest)
    obtain ⟨n', hn', heq'⟩ := h.node hn
    refine ⟨n', hn', ?_⟩
    rw [← Node.input?_eq_some, Node.links_input? heq', Node.input?_eq_some, hkind]
  orphan {f x'} hx' hdest := by
    obtain ⟨x, hx, heq⟩ := h.symm.fragment hx'
    rw [← Fragment.links_parent heq]
    exact hs.orphan hx ((Fragment.links_destination heq).trans hdest)

end Alike

namespace Coherent

theorem modifyNode (h : s.Coherent) {g : Node → Node} (hid : ∀ n, (g n).id = n.id) {i : NodeId}
    (hg : ∀ n, s.node? i = some n → (g n).links = n.links) : (s.modifyNode i g).Coherent := by
  refine Alike.coherent (s := s) ⟨fun j ↦ ?_, fun f ↦ rfl⟩ h (h.ordered.modifyNode hid i)
  rw [node?_modifyNode hid]
  split
  · rename_i hj
    subst hj
    cases hn : s.node? j with
    | some n => exact congrArg some (hg n hn)
    | none => rfl
  · rfl

theorem modifyFragment (h : s.Coherent) {g : Fragment → Fragment} (hid : ∀ x, (g x).id = x.id)
    {f : FragmentId} (hg : ∀ x, s.fragment? f = some x → (g x).links = x.links) :
    (s.modifyFragment f g).Coherent :=
  (Alike.modifyFragment hid hg).coherent h (h.ordered.modifyFragment hid f)

end Coherent

end Session

end QueryPlanning
