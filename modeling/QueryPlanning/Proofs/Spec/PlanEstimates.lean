import QueryPlanning.Proofs.Spec.NodeTallies

/-!
# Estimates of a plan

Every operator estimates its rows and nodes from the estimates for its inputs, and cutting a
fragment that is not partitioned brings the hosts of its root down to one. The bounds on the
estimates hold of each node when it is added and stay from then on; an exchange has the rows of its
child.
-/

namespace QueryPlanning

-- The sums of the core library, whatever else is imported.
attribute [local instance (high)] Zero.ofOfNat0

open Outcome (Runs)

namespace Node

/-- The bounds on the estimates for a node in a cluster of some size. -/
structure Plausible (size : Nat) (n : Node) : Prop where
  one_le_hosts : 1 ≤ n.hosts
  hosts_le : n.hosts ≤ size
  rows : -1 ≤ n.rows
  inputRows : -1 ≤ n.inputRows
  limit : 0 ≤ n.limit → 0 ≤ n.rows ∧ n.rows ≤ n.limit

theorem Plausible.unlimited {size : Nat} {n : Node} (hlimit : n.limit = -1) (hone : 1 ≤ n.hosts)
    (hsize : n.hosts ≤ size) (hrows : -1 ≤ n.rows) (hinput : -1 ≤ n.inputRows) :
    n.Plausible size :=
  ⟨hone, hsize, hrows, hinput, fun h ↦ by omega⟩

/-- The node as it was estimated, except that one host may have to do. -/
structure Revised (m n : Node) : Prop where
  operation : n.operation = m.operation
  rows : n.rows = m.rows
  inputRows : n.inputRows = m.inputRows
  hosts : n.hosts = m.hosts ∨ n.hosts = 1

variable {size : Nat} {m n : Node}

theorem Revised.refl (n : Node) : n.Revised n := ⟨rfl, rfl, rfl, .inl rfl⟩

theorem Plausible.revised (h : m.Plausible size) (hpos : 1 ≤ size) (hr : m.Revised n) :
    n.Plausible size := by
  have hlimit := operation_limit hr.operation
  refine ⟨?_, ?_, hr.rows ▸ h.rows, hr.inputRows ▸ h.inputRows, ?_⟩
  · rcases hr.hosts with hhosts | hhosts
    · exact hhosts ▸ h.one_le_hosts
    · omega
  · rcases hr.hosts with hhosts | hhosts
    · exact hhosts ▸ h.hosts_le
    · omega
  · rw [hlimit, hr.rows]
    exact h.limit

end Node

namespace Session

variable {s s' : Session} {size : Nat} {loose : List NodeId} {opens : List FragmentId}

structure Plausible (s : Session) (size : Nat) : Prop where
  cluster : s.cluster.size = size
  node {i : NodeId} {n : Node} : s.node? i = some n → n.Plausible size
  exchange {e c : NodeId} {n m : Node} {f : FragmentId} :
    s.node? e = some n → n.kind = .exchange f → c ∈ n.children → s.node? c = some m →
      n.rows = m.rows
  unpartitioned {f : FragmentId} {x : Fragment} {n : Node} :
    s.fragment? f = some x → x.partitioning = .unpartitioned → s.node? x.root = some n →
      n.hosts = 1

theorem cluster_adopt {target c : FragmentId} (h : s.adopt target c = .ok s') :
    s'.cluster = s.cluster := by
  simp only [adopt, Outcome.bind_eq_ok] at h
  obtain ⟨x, _, h⟩ := h
  split at h
  · rw [Outcome.pure_eq_ok.mp h]
  · rw [← Outcome.pure_eq_ok.mp h]
    rfl

theorem cluster_createFragment {root : NodeId} {partitioning : Partitioning} {f : FragmentId}
    (h : s.createFragment root partitioning = .ok (f, s')) : s'.cluster = s.cluster := by
  simp only [createFragment, Outcome.bind_eq_ok, Outcome.pure_eq_ok] at h
  obtain ⟨members, _, s₁, hadopt, h⟩ := h
  obtain ⟨rfl, rfl⟩ := Prod.mk.inj h
  refine Outcome.foldlM_invariant (fun t : Session ↦ t.cluster = s.cluster) ?_ hadopt rfl
  intro c t t' ht hc
  rw [cluster_adopt hc, ht]

namespace Plausible

theorem of_empty (hnodes : s.nodes = []) (hfragments : s.fragments = []) :
    s.Plausible s.cluster.size where
  cluster := rfl
  node hn := absurd hn (node?_ne_some hnodes _)
  exchange hn := absurd hn (node?_ne_some hnodes _)
  unpartitioned hx := absurd hx (fragment?_ne_some hfragments _)

/-- Nodes may be revised and fragments may change, but not in their partitioning and root; a new
fragment has its root on one host, unless it is partitioned. -/
theorem revise (h : s.Plausible size) (hpos : 1 ≤ size) (hcluster : s'.cluster = s.cluster)
    (hnode : ∀ i n', s'.node? i = some n' → ∃ n, s.node? i = some n ∧ n.Revised n')
    (hfragment : ∀ f x', s'.fragment? f = some x' →
      (∃ x, s.fragment? f = some x ∧ x.root = x'.root ∧ x.partitioning = x'.partitioning) ∨
        (x'.partitioning = .unpartitioned →
          ∀ n', s'.node? x'.root = some n' → n'.hosts = 1)) : s'.Plausible size where
  cluster := by rw [hcluster, h.cluster]
  node hn' := by
    obtain ⟨n, hn, hrevised⟩ := hnode _ _ hn'
    exact (h.node hn).revised hpos hrevised
  exchange {e c n' m' f} hn' hkind hc hm' := by
    obtain ⟨n, hn, hrevised⟩ := hnode _ _ hn'
    obtain ⟨m, hm, hrevised'⟩ := hnode _ _ hm'
    rw [Node.operation_kind hrevised.operation] at hkind
    rw [Node.operation_children hrevised.operation] at hc
    rw [hrevised.rows, hrevised'.rows]
    exact h.exchange hn hkind hc hm
  unpartitioned {f x' n'} hx' hpartitioning hn' := by
    rcases hfragment f x' hx' with ⟨x, hx, hroot, hsame⟩ | hnew
    · obtain ⟨n, hn, hrevised⟩ := hnode _ _ hn'
      have hone := h.unpartitioned hx (hsame.trans hpartitioning) (hroot ▸ hn)
      rcases hrevised.hosts with hhosts | hhosts
      · rw [hhosts, hone]
      · exact hhosts
    · exact hnew hpartitioning n' hn'

theorem modifyFragment (h : s.Plausible size) (hpos : 1 ≤ size) {g : Fragment → Fragment}
    (hid : ∀ x, (g x).id = x.id) (hroot : ∀ x, (g x).root = x.root)
    (hpartitioning : ∀ x, (g x).partitioning = x.partitioning) (f : FragmentId) :
    (s.modifyFragment f g).Plausible size := by
  refine h.revise hpos rfl (fun i n hn ↦ ⟨n, hn, .refl n⟩) fun k x' hx' ↦ .inl ?_
  rw [fragment?_modifyFragment hid] at hx'
  split at hx'
  · obtain ⟨x, hx, rfl⟩ := Option.map_eq_some_iff.mp hx'
    exact ⟨x, hx, (hroot x).symm, (hpartitioning x).symm⟩
  · exact ⟨x', hx', rfl, rfl⟩

theorem environment (h : s.Plausible size) (hcluster : s'.cluster = s.cluster)
    (hnodes : s'.nodes = s.nodes) (hfragments : s'.fragments = s.fragments) :
    s'.Plausible size := by
  have hnode (i : NodeId) : s'.node? i = s.node? i := by rw [node?, node?, hnodes]
  have hfragment (f : FragmentId) : s'.fragment? f = s.fragment? f := by
    rw [fragment?, fragment?, hfragments]
  refine ⟨hcluster ▸ h.cluster, fun hn ↦ h.node (hnode _ ▸ hn), ?_, ?_⟩
  · intro e c n m f hn hkind hc hm
    exact h.exchange (hnode e ▸ hn) hkind hc (hnode c ▸ hm)
  · intro f x n hx hpartitioning hn
    exact h.unpartitioned (hfragment f ▸ hx) hpartitioning (hnode x.root ▸ hn)

/-- A node is added. -/
theorem add (h : s.Plausible size) (hs : s.Coherent) {node : NodeId → Node}
    (hid : (node s.nextNode).id = s.nextNode) (hnew : (node s.nextNode).Plausible size)
    (hexchange : ∀ f, (node s.nextNode).kind = .exchange f →
      ∀ c ∈ (node s.nextNode).children, ∀ m, s.node? c = some m →
        (node s.nextNode).rows = m.rows) : (s.add node).2.Plausible size where
  cluster := h.cluster
  node {i n} hn := by
    rw [hs.ordered.node?_add hid] at hn
    split at hn
    · rw [← Option.some.inj hn]
      exact hnew
    · exact h.node hn
  exchange {e c n m f} hn hkind hc hm := by
    rw [hs.ordered.node?_add hid] at hn hm
    split at hn
    · obtain rfl := Option.some.inj hn
      split at hm
      · rw [← Option.some.inj hm]
      · exact hexchange f hkind c hc m hm
    · obtain ⟨m', hm'⟩ := hs.tree.child ⟨n, hn, hc⟩
      rw [if_neg (hs.ordered.nextNode_ne hm')] at hm
      exact h.exchange hn hkind hc hm
  unpartitioned {f x n} hx hpartitioning hn := by
    obtain ⟨m, hm, _⟩ := hs.root hx
    rw [hs.ordered.node?_add hid, if_neg (hs.ordered.nextNode_ne hm)] at hn
    exact h.unpartitioned hx hpartitioning hn

theorem of_add (h : s.Plausible size) (hs : s.Coherent) {node : NodeId → Node} {id : NodeId}
    (hadd : s.add node = (id, s')) (hid : (node s.nextNode).id = s.nextNode)
    (hkind : ∀ f, (node s.nextNode).kind ≠ .exchange f)
    (hnew : (node s.nextNode).Plausible size) : s'.Plausible size := by
  obtain ⟨rfl, rfl⟩ := Prod.mk.inj hadd
  exact h.add hs hid hnew fun f hf ↦ absurd hf (hkind f)

/-- A fragment is cut off at a loose node, whose estimate comes down to one host if it has to. -/
theorem cut (h : s.Plausible size) (hpos : 1 ≤ size) {root : NodeId} {partitioning : Partitioning}
    {f : FragmentId} (hbuilt : s.Built (root :: loose) opens)
    (hs : s.cut root partitioning = .ok (f, s')) : s'.Plausible size := by
  simp only [Session.cut, Outcome.bind_eq_ok, Outcome.pure_eq_ok] at hs
  obtain ⟨⟨g, s₁⟩, hcreate, hs⟩ := hs
  obtain ⟨rfl, rfl⟩ := Prod.mk.inj hs
  have hsound := hbuilt.sound
  obtain ⟨inputs, hr, _⟩ :=
    hsound.coherent.recut_of_free (hsound.owned List.mem_cons_self) hcreate
  have hnode (i : NodeId) (n' : Node) (hn' : s₁.node? i = some n') :
      ∃ n, s.node? i = some n ∧ n.Revised n' := by
    obtain ⟨n, hn, ⟨_, rfl⟩ | ⟨_, rfl⟩⟩ := hr.node_cases hn'
    · exact ⟨n, hn, rfl, rfl, rfl, .inl rfl⟩
    · exact ⟨n', hn, .refl n'⟩
  have hfragment (k : FragmentId) (x' : Fragment) (hx' : s₁.fragment? k = some x') :
      (∃ x, s.fragment? k = some x ∧ x.root = x'.root ∧ x.partitioning = x'.partitioning) ∨
        (x'.root = root ∧ x'.partitioning = partitioning) := by
    rcases hr.parted.fragment_cases hx' with ⟨_, rfl⟩ | ⟨x, hx, _, rfl⟩
    · exact .inr ⟨by simp, by simp⟩
    · exact .inl ⟨x, hx, by simp, by simp⟩
  have hcluster : s₁.cluster = s.cluster := cluster_createFragment hcreate
  let single : Node → Node := ({ · with hosts := 1 })
  have hid (n : Node) : (single n).id = n.id := rfl
  split
  · rename_i hpartitioned
    refine h.revise hpos hcluster hnode fun k x' hx' ↦ (hfragment k x' hx').imp_right ?_
    rintro ⟨_, rfl⟩ hone
    rw [hone] at hpartitioned
    cases hpartitioned
  · refine h.revise hpos hcluster (fun i n' hn' ↦ ?_) fun k x' hx' ↦
      (hfragment k x' hx').imp_right ?_
    · rw [node?_modifyNode hid] at hn'
      split at hn'
      · obtain ⟨n, hn, rfl⟩ := Option.map_eq_some_iff.mp hn'
        obtain ⟨m, hm, hrevised⟩ := hnode i n hn
        exact ⟨m, hm, hrevised.operation, hrevised.rows, hrevised.inputRows, .inr rfl⟩
      · exact hnode i n' hn'
    · rintro ⟨hroot, _⟩ _ n' hn'
      rw [node?_modifyNode hid, if_pos hroot] at hn'
      obtain ⟨n, _, rfl⟩ := Option.map_eq_some_iff.mp hn'
      rfl

/-- Other hosts are estimated for a node that no fragment begins at. -/
theorem setHosts (h : s.Plausible size) {i : NodeId} {hosts : Int} (hone : 1 ≤ hosts)
    (hsize : hosts ≤ size) (hroot : ∀ f x, s.fragment? f = some x → x.root ≠ i) :
    (s.modifyNode i ({ · with hosts })).Plausible size := by
  let estimated : Node → Node := ({ · with hosts })
  have hid (n : Node) : (estimated n).id = n.id := rfl
  have hnode (j : NodeId) (n' : Node) (hn' : (s.modifyNode i estimated).node? j = some n') :
      ∃ n, s.node? j = some n ∧ n'.operation = n.operation ∧ n'.rows = n.rows ∧
        n'.Plausible size ∧ (j ≠ i → n' = n) := by
    rw [node?_modifyNode hid] at hn'
    split at hn'
    · rename_i hj
      obtain ⟨n, hn, rfl⟩ := Option.map_eq_some_iff.mp hn'
      have hold := h.node hn
      exact ⟨n, hn, rfl, rfl, ⟨hone, hsize, hold.rows, hold.inputRows, hold.limit⟩,
        fun hne ↦ absurd hj hne⟩
    · exact ⟨n', hn', rfl, rfl, h.node hn', fun _ ↦ rfl⟩
  refine ⟨h.cluster, fun hn' ↦ ?_, ?_, ?_⟩
  · obtain ⟨n, _, _, _, hplausible, _⟩ := hnode _ _ hn'
    exact hplausible
  · intro e c n' m' f hn' hkind hc hm'
    obtain ⟨n, hn, hsame, hrows, _⟩ := hnode _ _ hn'
    obtain ⟨m, hm, _, hrows', _⟩ := hnode _ _ hm'
    rw [Node.operation_kind hsame] at hkind
    rw [Node.operation_children hsame] at hc
    rw [hrows, hrows']
    exact h.exchange hn hkind hc hm
  · intro f x n' hx hpartitioning hn'
    obtain ⟨n, hn, _, _, _, hsame⟩ := hnode _ _ hn'
    rw [hsame (hroot f x hx)]
    exact h.unpartitioned hx hpartitioning hn

/-- An exchange is added above the root of a fragment, whose rows it receives. -/
theorem addExchange (h : s.Plausible size) (hpos : 1 ≤ size) (hs : s.Coherent) {f : FragmentId}
    {partitioning : Partitioning} {e : NodeId} (he : s.addExchange f partitioning = .ok (e, s')) :
    s'.Plausible size := by
  simp only [Session.addExchange, Outcome.bind_eq_ok, fragment_eq_ok] at he
  obtain ⟨x, hx, he⟩ := he
  split at he
  · cases he
  simp only [Outcome.bind_eq_ok, node_eq_ok, Outcome.pure_eq_ok, Prod.mk.injEq] at he
  obtain ⟨n, hn, rfl, rfl⟩ := he
  have hrows := (h.node hn).rows
  refine modifyFragment (h.add hs rfl ?_ ?_) hpos ?_ ?_ ?_ f
  · exact .unlimited rfl (Int.le_refl 1) (Int.ofNat_le.mpr hpos) hrows hrows
  · intro g _ c hc m hm
    rw [List.mem_singleton.mp hc, hn] at hm
    rw [← Option.some.inj hm]
  all_goals exact fun _ ↦ rfl

theorem cutExchange (h : s.Plausible size) (hpos : 1 ≤ size) (hsize : size < 0x80000000)
    {root e : NodeId} {sent own : Partitioning} (hbuilt : s.Built (root :: loose) opens)
    (hs : s.cutExchange root sent own = .ok (e, s')) : s'.Plausible size := by
  simp only [Session.cutExchange, Outcome.bind_eq_ok, Outcome.pure_eq_ok] at hs
  obtain ⟨⟨f, s₁⟩, hcut, ⟨e', s₂⟩, hexchange, hs⟩ := hs
  obtain ⟨rfl, rfl⟩ := Prod.mk.inj hs
  have hbuilt₁ := hbuilt.cutFragment hcut
  have h₂ := (h.cut hpos hbuilt hcut).addExchange hpos hbuilt₁.sound.coherent hexchange
  have hfree := (hbuilt₁.exchange hexchange).sound
  refine h₂.setHosts ?_ ?_ fun g x hx ↦ hfree.ne_root List.mem_cons_self hx
  all_goals
    rw [h₂.cluster, Number.wrapSigned_of_lt hsize]
    split <;> omega

theorem addUnary (h : s.Plausible size) (hpos : 1 ≤ size) (hs : s.Coherent) {kind : NodeKind}
    {children : List NodeId} {limit : Int} {conjuncts : List Expr} {id : NodeId}
    (hkind : ∀ f, kind ≠ .exchange f)
    (hadd : s.addUnary kind children limit conjuncts = .ok (id, s')) : s'.Plausible size := by
  simp only [Session.addUnary, Outcome.bind_eq_ok, Outcome.pure_eq_ok] at hadd
  obtain ⟨input?, hinput, hadd⟩ := hadd
  have hall : ∀ n, input? = some n → n.Plausible size := by
    rintro n rfl
    cases hhead : children.head? with
    | none =>
      rw [hhead] at hinput
      cases hinput
    | some c =>
      rw [hhead] at hinput
      obtain ⟨m, hm, hsome⟩ := Outcome.map_eq_ok.mp hinput
      rw [← Option.some.inj hsome]
      exact h.node (node_eq_ok.mp hm)
  have hrows : -1 ≤ (input?.map (·.rows)).getD (-1) ∧ 1 ≤ (input?.map (·.hosts)).getD 1 ∧
      (input?.map (·.hosts)).getD 1 ≤ size := by
    cases input? with
    | none => exact ⟨Int.le_refl _, Int.le_refl _, Int.ofNat_le.mpr hpos⟩
    | some n =>
      have hn := hall n rfl
      exact ⟨hn.rows, hn.one_le_hosts, hn.hosts_le⟩
  obtain ⟨hrows, hone, hsize⟩ := hrows
  refine h.of_add hs hadd rfl hkind ⟨hone, hsize, neg_one_le_limitedRows hrows, hrows, ?_⟩
  exact limitedRows_mem hrows

theorem addJoin (h : s.Plausible size) (hs : s.Coherent) {join : Join} {probe build id : NodeId}
    (hadd : s.addJoin join probe build = .ok (id, s')) : s'.Plausible size := by
  simp only [Session.addJoin, Outcome.bind_eq_ok, Outcome.pure_eq_ok, node_eq_ok] at hadd
  obtain ⟨input, hinput, hadd⟩ := hadd
  have hn := h.node hinput
  refine h.of_add hs hadd rfl (fun _ ↦ NodeKind.noConfusion) ?_
  exact .unlimited rfl hn.one_le_hosts hn.hosts_le hn.rows hn.rows

/-- A union of known numbers of rows has a known number of rows. -/
theorem addUnion (h : s.Plausible size) (hpos : 1 ≤ size) (hs : s.Coherent)
    {children : List NodeId} {id : NodeId} (hadd : s.addUnion children = .ok (id, s')) :
    s'.Plausible size := by
  simp only [Session.addUnion, Outcome.bind_eq_ok, Outcome.pure_eq_ok] at hadd
  obtain ⟨inputs, hinputs, hadd⟩ := hadd
  have hall : ∀ n ∈ inputs, n.Plausible size := by
    intro n hn
    obtain ⟨c, _, hc⟩ := Outcome.exists_of_mem_forall₂ (Outcome.mapM_eq_ok.mp hinputs) hn
    exact h.node (node_eq_ok.mp hc)
  have hrows := Node.neg_one_le_union fun n hn ↦ (hall n hn).rows
  have hhosts : 1 ≤ (inputs.map (·.hosts)).max?.getD 1 ∧
      (inputs.map (·.hosts)).max?.getD 1 ≤ size := by
    cases hmax : (inputs.map (·.hosts)).max? with
    | none => exact ⟨Int.le_refl _, Int.ofNat_le.mpr hpos⟩
    | some hosts =>
      obtain ⟨n, hn, rfl⟩ := List.mem_map.mp (List.max?_mem hmax)
      exact ⟨(hall n hn).one_le_hosts, (hall n hn).hosts_le⟩
  refine h.of_add hs hadd rfl (fun _ ↦ NodeKind.noConfusion) ?_
  exact .unlimited rfl hhosts.1 hhosts.2 hrows hrows

theorem addSource (h : s.Plausible size) (hpos : 1 ≤ size) (hs : s.Coherent) {kind : NodeKind}
    {rows : Int} {id : NodeId} (hkind : ∀ f, kind ≠ .exchange f) (hrows : -1 ≤ rows)
    (hadd : s.addSource kind rows = (id, s')) : s'.Plausible size := by
  refine h.of_add hs hadd rfl hkind ?_
  exact .unlimited rfl (Int.le_refl 1) (Int.ofNat_le.mpr hpos) hrows hrows

theorem addScan (h : s.Plausible size) (hpos : 1 ≤ size) (hsize : size < 0x80000000)
    (hs : s.Coherent) {t : Table} {predicates : List KeyPredicate} {columns : Nat} {limit : Int}
    {id : NodeId} (hadd : s.addScan t predicates columns limit = (.ok id, s')) :
    s'.Plausible size := by
  obtain ⟨planned, hosts, hruns, hadd⟩ := exists_planned hadd
  obtain ⟨hinput, hrows⟩ := Scan.rows_of_plan hruns
  obtain ⟨hone, hnodes⟩ :=
    Scan.nodes_of_plan (by rwa [h.cluster]) (by rwa [h.cluster]) hruns
  rw [h.cluster] at hnodes
  have h' : ({ s with hosts } : Session).Plausible size := h.environment rfl rfl rfl
  have hs' : ({ s with hosts } : Session).Coherent :=
    Alike.coherent (s := s) ⟨fun _ ↦ rfl, fun _ ↦ rfl⟩ hs ⟨hs.ordered.nodes, hs.ordered.fragments⟩
  refine h'.of_add hs' hadd rfl (fun _ ↦ NodeKind.noConfusion) ?_
  refine ⟨hone, hnodes, ?_, hinput, ?_⟩
  · rw [hrows]
    exact neg_one_le_limitedRows hinput
  · rw [hrows]
    exact limitedRows_mem hinput

end Plausible

end Session

/-! ## Plans -/

namespace NodeSpec

variable {catalog : Catalog} {s s' : Session} {size : Nat} {loose ids : List NodeId}
  {opens : List FragmentId} {id : NodeId}

/-- The estimates for the node of an operator. -/
theorem plausible_addNode (hpos : 1 ≤ size) (hsize : size < 0x80000000) {spec : NodeSpec}
    (hbuilt : s.Built (ids ++ loose) opens) (h : s.Plausible size)
    (hs : spec.addNode catalog s ids = .ok (id, s')) : s'.Plausible size := by
  have hcoherent := hbuilt.sound.coherent
  cases spec with
  | scan table predicates columns limit =>
    simp only [addNode, Outcome.bind_eq_ok, Outcome.pure_eq_ok] at hs
    obtain ⟨t, _, i, hi, hs⟩ := hs
    obtain ⟨rfl, rfl⟩ := Prod.mk.inj hs
    exact h.addScan hpos hsize hcoherent (Prod.ext hi rfl)
  | join =>
    simp only [addNode] at hs
    split at hs
    · exact h.addJoin hcoherent hs
    · cases hs
  | exchange =>
    simp only [addNode] at hs
    split at hs
    · exact h.cutExchange hpos hsize hbuilt hs
    · cases hs
  | subplan | aggregation | select | sort =>
    exact h.addUnary hpos hcoherent (fun _ ↦ NodeKind.noConfusion) hs
  | union => exact h.addUnion hpos hcoherent hs
  | unnest | singularRow | emptySet =>
    exact h.addSource hpos hcoherent (fun _ ↦ NodeKind.noConfusion) (by decide) (Except.ok.inj hs)

/-- Wherever the operator is built, the estimates stay within their bounds. -/
def KeepsPlausible (spec : NodeSpec) (catalog : Catalog) (size : Nat) : Prop :=
  ∀ {s s' : Session} {loose : List NodeId} {opens : List FragmentId} {id : NodeId},
    s.Built loose opens → s.Plausible size → spec.build catalog s = .ok (id, s') →
      s'.Plausible size

theorem plausible_buildAll {specs : List NodeSpec}
    (hspecs : ∀ spec ∈ specs, spec.KeepsPlausible catalog size) (hbuilt : s.Built loose opens)
    (h : s.Plausible size) (hs : buildAll catalog s specs = .ok (ids, s')) :
    s'.Plausible size := by
  induction specs generalizing s loose ids with
  | nil =>
    obtain ⟨_, rfl⟩ := Prod.mk.inj (Except.ok.inj hs)
    exact h
  | cons spec rest ih =>
    simp only [buildAll, Outcome.bind_eq_ok, Outcome.pure_eq_ok] at hs
    obtain ⟨⟨i, s₁⟩, hi, ⟨js, s₂⟩, hjs, hs⟩ := hs
    obtain ⟨rfl, rfl⟩ := Prod.mk.inj hs
    obtain ⟨hspec, hrest⟩ := List.forall_mem_cons.mp hspecs
    exact ih hrest (built hbuilt spec hi) (hspec hbuilt h hi) hjs

theorem keepsPlausible (hpos : 1 ≤ size) (hsize : size < 0x80000000) (spec : NodeSpec) :
    spec.KeepsPlausible catalog size := by
  induction spec using NodeSpec.induction with
  | step spec ih =>
    intro s s' loose opens id hbuilt h hs
    obtain ⟨ids, s₁, hall, hs⟩ := exists_inputs hs
    have h₁ := plausible_buildAll ih hbuilt h hall
    exact plausible_addNode hpos hsize (builtAll hbuilt spec.inputs hall) h₁ hs

end NodeSpec

namespace PlanSpec

variable {spec : PlanSpec} {catalog catalog' : Catalog} {cluster : Cluster} {options : Options}
  {root : FragmentId} {s : Session}

theorem plausible_of_buildFrom (hpos : 1 ≤ (spec.clusterOr cluster).size)
    (hsize : (spec.clusterOr cluster).size < 0x80000000)
    (h : spec.buildFrom catalog cluster options = .ok (root, s)) :
    s.Plausible (spec.clusterOr cluster).size := by
  simp only [buildFrom, Outcome.bind_eq_ok, Outcome.pure_eq_ok] at h
  obtain ⟨⟨i, s₁⟩, hi, ⟨f, s₂⟩, hcut, kind, _, h⟩ := h
  obtain ⟨rfl, rfl⟩ := Prod.mk.inj h
  have hempty : Session.Built { options, cluster := spec.clusterOr cluster } [] [] :=
    .empty rfl rfl
  have hbuilt := spec.root.built hempty hi
  have h₁ := NodeSpec.keepsPlausible hpos hsize spec.root hempty (.of_empty rfl rfl) hi
  refine (h₁.cut hpos hbuilt hcut).modifyFragment hpos ?_ ?_ ?_ f
  all_goals exact fun _ ↦ rfl

/-- The estimates of a plan, for a cluster that has nodes, but no more than a word can count: the
bounds hold of all nodes, an exchange has the rows of the fragment below it, and a fragment that is
not partitioned begins at a node on one host. -/
theorem build_estimates (hpos : 1 ≤ (spec.clusterOr cluster).size)
    (hsize : (spec.clusterOr cluster).size < 0x80000000)
    (hbuild : spec.build catalog cluster options = (.ok (root, s), catalog')) :
    (∀ n ∈ s.nodes, n.Plausible (spec.clusterOr cluster).size) ∧
      (∀ n ∈ s.nodes, ∀ f, n.kind = .exchange f → ∃ x r, s.fragment? f = some x ∧
        s.node? x.root = some r ∧ n.rows = r.rows) ∧
      ∀ x ∈ s.fragments, x.partitioning = .unpartitioned →
        ∃ r, s.node? x.root = some r ∧ r.hosts = 1 := by
  have hfrom := buildFrom_of_build hbuild
  have h := plausible_of_buildFrom hpos hsize hfrom
  have hs := (wellFormed_of_buildFrom hfrom).sound.coherent
  refine ⟨fun n hn ↦ h.node (hs.ordered.nodes.get?_of_mem hn), fun n hn f hkind ↦ ?_,
    fun x hx hpartitioning ↦ ?_⟩
  · have hn' := hs.ordered.nodes.get?_of_mem hn
    obtain ⟨x, _, _, hx, hchildren, _⟩ := hs.exchange hn' hkind
    obtain ⟨r, hr, _⟩ := hs.root hx
    have hmem : x.root ∈ n.children := by
      rw [hchildren]
      exact List.mem_singleton_self _
    exact ⟨x, r, hx, hr, h.exchange hn' hkind hmem hr⟩
  · have hx' := hs.ordered.fragments.get?_of_mem hx
    obtain ⟨r, hr, _⟩ := hs.root hx'
    exact ⟨r, hr, h.unpartitioned hx' hpartitioning hr⟩

/-- The first rows that come from all nodes of a cluster. -/
def gathered : PlanSpec where
  membership := some { size := 4 }
  root := .sort {} 1 (.exchange .random .random (.union [.singularRow, .singularRow]))

theorem build_estimates_gathered : ∃ s, gathered.build {} {} {} = (.ok (⟨1⟩, s), {}) ∧
    (∀ n ∈ s.nodes, n.Plausible 4) ∧
    s.nodes.map (fun n ↦ (n.rows, n.hosts)) = [(1, 1), (1, 1), (2, 1), (2, 4), (1, 1)] := by
  have hestimates : (gathered.buildFrom {} {} {}).toOption.map
      (fun r ↦ (r.1, r.2.nodes.map fun n ↦ (n.rows, n.hosts))) =
        some (⟨1⟩, [(1, 1), (1, 1), (2, 1), (2, 4), (1, 1)]) := by
    decide +kernel
  obtain ⟨⟨root, s⟩, hs, heq⟩ := Option.map_eq_some_iff.mp hestimates
  obtain ⟨rfl, hnodes⟩ := Prod.mk.inj heq
  have hbuild : gathered.build {} {} {} = (.ok (⟨1⟩, s), {}) := by
    rw [build_of_nil rfl, Outcome.toOption_eq_some.mp hs]
  exact ⟨s, hbuild, (build_estimates (by decide) (by decide) hbuild).1, hnodes⟩

end PlanSpec

end QueryPlanning
