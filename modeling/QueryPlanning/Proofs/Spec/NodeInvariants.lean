import QueryPlanning.Proofs.Plan.ExtractionFailures
import QueryPlanning.Proofs.Scan.ScannedRanges
import QueryPlanning.Proofs.Spec.Build

/-!
# What holds of the nodes of a plan

A node of a plan keeps its kind and its children while the plan is built around it, and a numbering
of hosts only goes on. So what holds of new nodes, and depends on nothing else, holds of all nodes
in the end. There is one fragment for each exchange, apart from the one at the top.
-/

namespace QueryPlanning

open Outcome (Runs)

/-- Something that holds of every node when it is added, whether it scans a table of the catalog or
does anything else, and that stays when the plan goes on. -/
structure NodeInvariant (catalog : Catalog) (holds : Hosts → Node → Prop) : Prop where
  congr {hosts : Hosts} {m n : Node} : m.kind = n.kind → m.children = n.children →
    holds hosts n → holds hosts m
  mono {hosts hosts' : Hosts} {n : Node} : hosts.Keeps hosts' → holds hosts n → holds hosts' n
  plain {hosts : Hosts} {n : Node} : n.Binary → (∀ sc, n.kind ≠ .scan sc) → holds hosts n
  scan {hosts hosts' : Hosts} {n : Node} {name : String} {t : Table} {o : Options} {c : Cluster}
    {predicates : List KeyPredicate} {columns : Nat} {limit : Int} {planned : Scan.Planned} :
    catalog.tableNamed name = .ok t →
    Runs (Scan.plan o c t predicates columns limit) hosts planned hosts' →
    n.kind = .scan planned.scan → holds hosts' n

namespace Session

variable {holds : Hosts → Node → Prop} {s s' s'' : Session} {k l : Nat}

/-- Nodes that something holds of and a number of fragments have been added, and hosts have been
numbered. -/
structure Extends (holds : Hosts → Node → Prop) (s s' : Session) (k : Nat) : Prop where
  hosts : s.hosts.Keeps s'.hosts
  nodes : (∀ n ∈ s.nodes, holds s.hosts n) → ∀ n ∈ s'.nodes, holds s'.hosts n
  fragments : s'.fragments.length = s.fragments.length + k

theorem Extends.trans (h : s.Extends holds s' k) (h' : s'.Extends holds s'' l) :
    s.Extends holds s'' (k + l) where
  hosts := h.hosts.trans h'.hosts
  nodes := h'.nodes ∘ h.nodes
  fragments := by
    rw [h'.fragments, h.fragments, Nat.add_assoc]

theorem Extends.of_nodes (hnodes : s'.nodes = s.nodes) (hhosts : s'.hosts = s.hosts)
    (hfragments : s'.fragments.length = s.fragments.length + k) : s.Extends holds s' k where
  hosts := hhosts ▸ .refl _
  nodes h n hn := by
    rw [hhosts]
    exact h n (hnodes ▸ hn)
  fragments := hfragments

theorem extends_modifyFragment (s : Session) (f : FragmentId) (g : Fragment → Fragment) :
    s.Extends holds (s.modifyFragment f g) 0 :=
  .of_nodes rfl rfl (Numbered.length_modify f g s.fragments)

theorem extends_adopt {target c : FragmentId} (h : s.adopt target c = .ok s') :
    s.Extends holds s' 0 := by
  simp only [Session.adopt, Outcome.bind_eq_ok] at h
  obtain ⟨x, _, h⟩ := h
  split at h
  · obtain rfl := Outcome.pure_eq_ok.mp h
    exact .of_nodes rfl rfl rfl
  · obtain rfl := Outcome.pure_eq_ok.mp h
    exact (extends_modifyFragment s c _).trans (extends_modifyFragment _ target _)

theorem extends_foldlM_adopt {target : FragmentId} {cs : List FragmentId}
    (h : cs.foldlM (Session.adopt target) s = .ok s') : s.Extends holds s' 0 := by
  induction cs generalizing s with
  | nil =>
    obtain rfl := Outcome.pure_eq_ok.mp h
    exact .of_nodes rfl rfl rfl
  | cons c cs ih =>
    obtain ⟨d, hd, h⟩ := Outcome.foldlM_cons_eq_ok.mp h
    exact (extends_adopt hd).trans (ih h)

end Session

namespace NodeInvariant

variable {catalog : Catalog} {holds : Hosts → Node → Prop} {s s' : Session} {k : Nat}

theorem add (h : NodeInvariant catalog holds) {node : NodeId → Node}
    (hbinary : (node s.nextNode).Binary) (hscan : ∀ sc, (node s.nextNode).kind ≠ .scan sc) :
    s.Extends holds (s.add node).2 0 := by
  refine ⟨.refl _, fun hall n hn ↦ ?_, rfl⟩
  rcases List.mem_append.mp hn with hn | hn
  · exact hall n hn
  · rw [List.mem_singleton.mp hn]
    exact h.plain hbinary hscan

theorem of_add (h : NodeInvariant catalog holds) {node : NodeId → Node} {id : NodeId}
    (hs : s.add node = (id, s')) (hbinary : (node s.nextNode).Binary)
    (hscan : ∀ sc, (node s.nextNode).kind ≠ .scan sc) : s.Extends holds s' 0 := by
  obtain ⟨rfl, rfl⟩ := Prod.mk.inj hs
  exact h.add hbinary hscan

/-- Nodes may change, but for their kinds and children. -/
theorem map (h : NodeInvariant catalog holds) {g : Node → Node}
    (hkind : ∀ n, (g n).kind = n.kind) (hchildren : ∀ n, (g n).children = n.children)
    (hnodes : s'.nodes = s.nodes.map g) (hhosts : s'.hosts = s.hosts)
    (hfragments : s'.fragments.length = s.fragments.length + k) : s.Extends holds s' k := by
  refine ⟨hhosts ▸ .refl _, fun hall n hn ↦ ?_, hfragments⟩
  rw [hnodes] at hn
  obtain ⟨m, hm, rfl⟩ := List.mem_map.mp hn
  rw [hhosts]
  exact h.congr (hkind m) (hchildren m) (hall m hm)

theorem modifyNode (h : NodeInvariant catalog holds) {g : Node → Node}
    (hkind : ∀ n, (g n).kind = n.kind) (hchildren : ∀ n, (g n).children = n.children) (s : Session)
    (i : NodeId) : s.Extends holds (s.modifyNode i g) 0 := by
  refine h.map (g := fun n ↦ if n.id = i then g n else n) (fun n ↦ ?_) (fun n ↦ ?_) rfl rfl rfl
  all_goals split
  · exact hkind n
  · rfl
  · exact hchildren n
  · rfl

theorem createFragment (h : NodeInvariant catalog holds) {root : NodeId}
    {partitioning : Partitioning} {f : FragmentId}
    (hs : s.createFragment root partitioning = .ok (f, s')) : s.Extends holds s' 1 := by
  simp only [Session.createFragment, Outcome.bind_eq_ok, Outcome.pure_eq_ok, Prod.mk.injEq] at hs
  obtain ⟨members, _, _, hfold, _, rfl⟩ := hs
  have hcut : s.Extends holds { s.assign (members.map (·.id)) s.nextFragment with
      fragments := s.fragments ++ [{ id := s.nextFragment, root, partitioning }] } 1 := by
    refine h.map (fun n ↦ ?_) (fun n ↦ ?_) rfl rfl List.length_append
    all_goals split <;> rfl
  exact hcut.trans (Session.extends_foldlM_adopt hfold)

theorem cut (h : NodeInvariant catalog holds) {root : NodeId} {partitioning : Partitioning}
    {f : FragmentId} (hs : s.cut root partitioning = .ok (f, s')) : s.Extends holds s' 1 := by
  simp only [Session.cut, Outcome.bind_eq_ok, Outcome.pure_eq_ok] at hs
  obtain ⟨⟨g, s₁⟩, hcreate, hs⟩ := hs
  obtain ⟨rfl, rfl⟩ := Prod.mk.inj hs
  split
  · exact h.createFragment hcreate
  · refine (h.createFragment hcreate).trans (h.modifyNode ?_ ?_ _ _)
    all_goals exact fun _ ↦ rfl

theorem addExchange (h : NodeInvariant catalog holds) {f : FragmentId}
    {partitioning : Partitioning} {e : NodeId} (hs : s.addExchange f partitioning = .ok (e, s')) :
    s.Extends holds s' 0 := by
  simp only [Session.addExchange, Outcome.bind_eq_ok] at hs
  obtain ⟨x, _, hs⟩ := hs
  split at hs
  · cases hs
  · simp only [Outcome.bind_eq_ok, Outcome.pure_eq_ok] at hs
    obtain ⟨n, _, hs⟩ := hs
    obtain ⟨rfl, rfl⟩ := Prod.mk.inj hs
    refine .trans (h.add ?_ ?_) (Session.extends_modifyFragment _ f _)
    · trivial
    · exact fun _ ↦ NodeKind.noConfusion

theorem cutExchange (h : NodeInvariant catalog holds) {root : NodeId} {sent own : Partitioning}
    {e : NodeId} (hs : s.cutExchange root sent own = .ok (e, s')) : s.Extends holds s' 1 := by
  simp only [Session.cutExchange, Outcome.bind_eq_ok, Outcome.pure_eq_ok] at hs
  obtain ⟨⟨f, s₁⟩, hcut, ⟨e', s₂⟩, hexchange, hs⟩ := hs
  obtain ⟨rfl, rfl⟩ := Prod.mk.inj hs
  refine ((h.cut hcut).trans (h.addExchange hexchange)).trans (h.modifyNode ?_ ?_ _ _)
  all_goals exact fun _ ↦ rfl

theorem addUnary (h : NodeInvariant catalog holds) {kind : NodeKind} {children : List NodeId}
    {limit : Int} {conjuncts : List Expr} {id : NodeId}
    (hs : s.addUnary kind children limit conjuncts = .ok (id, s'))
    (hbinary : ∀ n : Node, n.kind = kind → n.children = children → n.Binary)
    (hscan : ∀ sc, kind ≠ .scan sc) : s.Extends holds s' 0 := by
  simp only [Session.addUnary, Outcome.bind_eq_ok, Outcome.pure_eq_ok] at hs
  obtain ⟨input, _, hs⟩ := hs
  exact h.of_add hs (hbinary _ rfl rfl) hscan

theorem addJoin (h : NodeInvariant catalog holds) {join : Join} {probe build id : NodeId}
    (hs : s.addJoin join probe build = .ok (id, s')) : s.Extends holds s' 0 := by
  simp only [Session.addJoin, Outcome.bind_eq_ok, Outcome.pure_eq_ok] at hs
  obtain ⟨input, _, hs⟩ := hs
  exact h.of_add hs rfl fun _ ↦ NodeKind.noConfusion

theorem addUnion (h : NodeInvariant catalog holds) {children : List NodeId} {id : NodeId}
    (hs : s.addUnion children = .ok (id, s')) : s.Extends holds s' 0 := by
  simp only [Session.addUnion, Outcome.bind_eq_ok, Outcome.pure_eq_ok] at hs
  obtain ⟨inputs, _, hs⟩ := hs
  exact h.of_add hs trivial fun _ ↦ NodeKind.noConfusion

theorem addScan (h : NodeInvariant catalog holds) {name : String} {t : Table}
    {predicates : List KeyPredicate} {columns : Nat} {limit : Int} {id : NodeId}
    (ht : catalog.tableNamed name = .ok t)
    (hs : s.addScan t predicates columns limit = (.ok id, s')) : s.Extends holds s' 0 := by
  obtain ⟨planned, hosts, hruns, hadd⟩ := Session.exists_planned hs
  obtain ⟨rfl, rfl⟩ := Prod.mk.inj hadd
  have hkeeps := (Scan.runs_plan hruns).1
  refine ⟨hkeeps, fun hall n hn ↦ ?_, rfl⟩
  rcases List.mem_append.mp hn with hn | hn
  · exact h.mono hkeeps (hall n hn)
  · rw [List.mem_singleton.mp hn]
    exact h.scan ht hruns rfl

end NodeInvariant

namespace NodeSpec

mutual

/-- The number of exchanges among an operator and those below it. -/
def exchangeCount : NodeSpec → Nat
  | .scan .. | .unnest _ | .singularRow | .emptySet => 0
  | .join _ probe side => probe.exchangeCount + side.exchangeCount
  | .subplan input evaluated => input.exchangeCount + evaluated.exchangeCount
  | .exchange _ _ input => input.exchangeCount + 1
  | .aggregation _ input | .select _ input | .sort _ _ input => input.exchangeCount
  | .union inputs => exchangeCountAll inputs

def exchangeCountAll : List NodeSpec → Nat
  | [] => 0
  | spec :: rest => spec.exchangeCount + exchangeCountAll rest

end

end NodeSpec

namespace NodeInvariant

variable {catalog : Catalog} {holds : Hosts → Node → Prop}

mutual

theorem build (h : NodeInvariant catalog holds) {s s' : Session} {id : NodeId} :
    (spec : NodeSpec) → spec.build catalog s = .ok (id, s') →
      s.Extends holds s' spec.exchangeCount
  | .scan table predicates columns limit, hs => by
    simp only [NodeSpec.build, Outcome.bind_eq_ok, Outcome.pure_eq_ok] at hs
    obtain ⟨t, ht, i, hi, hs⟩ := hs
    obtain ⟨rfl, rfl⟩ := Prod.mk.inj hs
    exact h.addScan ht (Prod.ext hi rfl)
  | .join spec probe side, hs => by
    simp only [NodeSpec.build, Outcome.bind_eq_ok] at hs
    obtain ⟨⟨p, s₁⟩, hp, ⟨b, s₂⟩, hb, hs⟩ := hs
    exact ((h.build probe hp).trans (h.build side hb)).trans (h.addJoin hs)
  | .exchange sent own input, hs => by
    simp only [NodeSpec.build, Outcome.bind_eq_ok] at hs
    obtain ⟨⟨root, s₁⟩, hinput, hs⟩ := hs
    exact (h.build input hinput).trans (h.cutExchange hs)
  | .subplan input evaluated, hs => by
    simp only [NodeSpec.build, Outcome.bind_eq_ok] at hs
    obtain ⟨⟨i, s₁⟩, hi, ⟨e, s₂⟩, he, hs⟩ := hs
    refine ((h.build input hi).trans (h.build evaluated he)).trans
      (h.addUnary hs ?_ fun _ ↦ NodeKind.noConfusion)
    intro n hkind hchildren
    rw [Node.Binary, hkind, hchildren]
    rfl
  | .aggregation spec input, hs => by
    simp only [NodeSpec.build, Outcome.bind_eq_ok] at hs
    obtain ⟨⟨i, s₁⟩, hi, hs⟩ := hs
    refine (h.build input hi).trans (h.addUnary hs ?_ fun _ ↦ NodeKind.noConfusion)
    intro n hkind _
    rw [Node.Binary, hkind]
    trivial
  | .select conjuncts input, hs => by
    simp only [NodeSpec.build, Outcome.bind_eq_ok] at hs
    obtain ⟨⟨i, s₁⟩, hi, hs⟩ := hs
    refine (h.build input hi).trans (h.addUnary hs ?_ fun _ ↦ NodeKind.noConfusion)
    intro n hkind _
    rw [Node.Binary, hkind]
    trivial
  | .sort keys limit input, hs => by
    simp only [NodeSpec.build, Outcome.bind_eq_ok] at hs
    obtain ⟨⟨i, s₁⟩, hi, hs⟩ := hs
    refine (h.build input hi).trans (h.addUnary hs ?_ fun _ ↦ NodeKind.noConfusion)
    intro n hkind _
    rw [Node.Binary, hkind]
    trivial
  | .union inputs, hs => by
    simp only [NodeSpec.build, Outcome.bind_eq_ok] at hs
    obtain ⟨⟨children, s₁⟩, hi, hs⟩ := hs
    exact (h.buildAll inputs hi).trans (h.addUnion hs)
  | .unnest collection, hs =>
    h.of_add (Except.ok.inj hs) trivial fun _ ↦ NodeKind.noConfusion
  | .singularRow, hs => h.of_add (Except.ok.inj hs) trivial fun _ ↦ NodeKind.noConfusion
  | .emptySet, hs => h.of_add (Except.ok.inj hs) trivial fun _ ↦ NodeKind.noConfusion

theorem buildAll (h : NodeInvariant catalog holds) {s s' : Session} {ids : List NodeId} :
    (specs : List NodeSpec) → NodeSpec.buildAll catalog s specs = .ok (ids, s') →
      s.Extends holds s' (NodeSpec.exchangeCountAll specs)
  | [], hs => by
    obtain ⟨rfl, rfl⟩ := Prod.mk.inj (Except.ok.inj hs)
    exact .of_nodes rfl rfl rfl
  | spec :: rest, hs => by
    simp only [NodeSpec.buildAll, Outcome.bind_eq_ok, Outcome.pure_eq_ok] at hs
    obtain ⟨⟨i, s₁⟩, hi, ⟨is, s₂⟩, his, hs⟩ := hs
    obtain ⟨rfl, rfl⟩ := Prod.mk.inj hs
    exact (h.build spec hi).trans (h.buildAll rest his)

end

/-- What holds of new nodes holds of all nodes of a plan, which has a fragment for each exchange and
one at the top. -/
theorem buildFrom (h : NodeInvariant catalog holds) {spec : PlanSpec} {cluster : Cluster}
    {options : Options} {root : FragmentId} {s : Session}
    (hs : spec.buildFrom catalog cluster options = .ok (root, s)) :
    (∀ n ∈ s.nodes, holds s.hosts n) ∧ s.fragments.length = 1 + spec.root.exchangeCount := by
  simp only [PlanSpec.buildFrom, Outcome.bind_eq_ok, Outcome.pure_eq_ok] at hs
  obtain ⟨⟨node, s₁⟩, hnode, ⟨f, s₂⟩, hcut, kind, _, hs⟩ := hs
  obtain ⟨rfl, rfl⟩ := Prod.mk.inj hs
  have hextends : Session.Extends holds { options, cluster := spec.clusterOr cluster }
      (s₂.setSink f kind) (spec.root.exchangeCount + 1) :=
    ((h.build spec.root hnode).trans (h.cut hcut)).trans (Session.extends_modifyFragment s₂ f _)
  refine ⟨hextends.nodes fun n hn ↦ absurd hn List.not_mem_nil, ?_⟩
  rw [hextends.fragments, Nat.add_comm 1]
  exact Nat.zero_add _

end NodeInvariant

theorem binary_invariant (catalog : Catalog) :
    NodeInvariant catalog fun _ n ↦ n.Binary where
  congr hkind hchildren h := h.of_eq hkind hchildren
  mono _ h := h
  plain hbinary _ := hbinary
  scan _ _ hkind := by
    rw [Node.Binary, hkind]
    trivial

/-- A plan from a specification has a fragment for each exchange and one at the top. -/
theorem PlanSpec.shaped_of_buildFrom {spec : PlanSpec} {catalog : Catalog} {cluster : Cluster}
    {options : Options} {root : FragmentId} {s : Session}
    (h : spec.buildFrom catalog cluster options = .ok (root, s)) :
    s.Binary ∧ s.fragments.length = 1 + spec.root.exchangeCount :=
  (binary_invariant catalog).buildFrom h

end QueryPlanning
