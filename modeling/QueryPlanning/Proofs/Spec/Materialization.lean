import QueryPlanning.Proofs.Spec.ExtractedJoins
import QueryPlanning.Proofs.Spec.OperatorNodes

/-!
# Plans and their specifications

A plan that is built from a specification has one node for each operator, with the nodes of the
operator's inputs for children, and one fragment for each exchange, apart from the one at the top.
An operator is found by the way down to it, and so is its node. The operators between two exchanges
are executed by the fragment that the upper exchange receives rows from.
-/

namespace QueryPlanning

namespace NodeSpec

variable {catalog : Catalog} {s s' : Session} {spec : NodeSpec}

theorem sizeOf_lt_of_mem_inputs {input : NodeSpec} (h : input ∈ spec.inputs) :
    sizeOf input < sizeOf spec := by
  cases spec <;> simp only [inputs, List.mem_cons, List.not_mem_nil, or_false] at h
  case union inputs =>
    have hlt := List.sizeOf_lt_of_mem h
    simp only [union.sizeOf_spec]
    omega
  case join =>
    rcases h with rfl | rfl <;> simp only [join.sizeOf_spec] <;> omega
  case subplan =>
    rcases h with rfl | rfl <;> simp only [subplan.sizeOf_spec] <;> omega
  all_goals
    subst h
    simp +arith

/-- What holds of an operator if it holds of its inputs holds of all operators. -/
theorem induction {holds : NodeSpec → Prop}
    (step : ∀ spec : NodeSpec, (∀ input ∈ spec.inputs, holds input) → holds spec)
    (spec : NodeSpec) : holds spec :=
  step spec fun input _ ↦ induction step input
termination_by sizeOf spec
decreasing_by exact sizeOf_lt_of_mem_inputs ‹_›

/-- The operator at the end of a path of positions among the inputs. -/
def at? (spec : NodeSpec) : List Nat → Option NodeSpec
  | [] => some spec
  | k :: path => (spec.inputs[k]?).bind (·.at? path)

def isExchange : NodeSpec → Bool
  | .exchange .. => true
  | _ => false

/-- The path to the last exchange that a path passes through before its end. -/
def enclosing? (spec : NodeSpec) : List Nat → Option (List Nat)
  | [] => none
  | k :: path =>
    match (spec.inputs[k]?).bind (·.enclosing? path) with
    | some above => some (k :: above)
    | none => if spec.isExchange then some [] else none

theorem Describes.isExchange {n : Node} (h : spec.Describes catalog s n) :
    n.isExchange = spec.isExchange := by
  unfold Node.isExchange Node.input?
  cases spec
  case scan =>
    obtain ⟨sc, hkind, _⟩ := h
    rw [hkind]
    rfl
  case exchange =>
    obtain ⟨f, x, hkind, _⟩ := h
    rw [hkind]
    rfl
  case select | sort =>
    rw [h.1]
    rfl
  all_goals
    have hkind : n.kind = _ := h
    rw [hkind]
    rfl

/-- Below a node there are the nodes of an operator and its inputs, on the same paths. -/
def Corresponds (spec : NodeSpec) (catalog : Catalog) (s : Session) (i : NodeId) : Prop :=
  ∀ path, Option.Rel (Describes catalog s) (spec.at? path) (s.at? i path)

namespace Corresponds

variable {i c : NodeId} {n : Node}

theorem exists_node (h : spec.Corresponds catalog s i) (path : List Nat) {a : NodeSpec}
    (ha : spec.at? path = some a) : ∃ n, s.at? i path = some n ∧ a.Describes catalog s n := by
  have hrel := h path
  rw [ha] at hrel
  generalize s.at? i path = o at hrel
  cases hrel with
  | some hdescribes => exact ⟨_, rfl, hdescribes⟩

theorem exists_operator (h : spec.Corresponds catalog s i) (path : List Nat)
    (hn : s.at? i path = some n) : ∃ a, spec.at? path = some a ∧ a.Describes catalog s n := by
  have hrel := h path
  rw [hn] at hrel
  generalize spec.at? path = o at hrel
  cases hrel with
  | some hdescribes => exact ⟨_, rfl, hdescribes⟩

theorem keep (h : spec.Corresponds catalog s i) (hkeeps : s.Keeps s') (ht : s.Treelike) :
    spec.Corresponds catalog s' i := by
  obtain ⟨n, hn, _⟩ := h.exists_node [] rfl
  intro path
  have hrel := h path
  have hsame := hkeeps.at? ht hn path
  generalize spec.at? path = a at hrel ⊢
  generalize s.at? i path = o at hrel hsame
  cases hrel with
  | none =>
    rw [Option.map_none, Option.map_eq_none_iff] at hsame
    rw [hsame]
    exact .none
  | some hdescribes =>
    obtain ⟨n', hn', hsame⟩ := Option.map_eq_some_iff.mp hsame
    rw [hn']
    exact .some (hdescribes.keep hkeeps hsame)

/-- The children of a node correspond to the inputs of the operator. -/
theorem exists_input (h : spec.Corresponds catalog s i) (ht : s.Treelike)
    (hn : s.node? i = some n) {k : Nat} (hc : n.children[k]? = some c) :
    ∃ input, spec.inputs[k]? = some input ∧ input.Corresponds catalog s c := by
  have hat (path : List Nat) : s.at? i (k :: path) = s.at? c path := by
    rw [Session.at?_cons hn, hc]
    rfl
  obtain ⟨m, hm⟩ := ht.child ⟨n, hn, List.mem_of_getElem? hc⟩
  obtain ⟨input, hinput, _⟩ := h.exists_operator [k] ((hat []).trans hm)
  obtain ⟨input, hinput, _⟩ := Option.bind_eq_some_iff.mp hinput
  refine ⟨input, hinput, fun path ↦ ?_⟩
  have hrel := h (k :: path)
  rw [hat, NodeSpec.at?, hinput] at hrel
  exact hrel

/-- The node of an operator stands above those of its inputs. -/
theorem of_inputs (hn : s.node? i = some n) (hdescribes : spec.Describes catalog s n)
    (hinputs : List.Forall₂ (Corresponds · catalog s) spec.inputs n.children) :
    spec.Corresponds catalog s i := by
  intro path
  cases path with
  | nil =>
    rw [Session.at?_nil, hn]
    exact .some hdescribes
  | cons k path =>
    rw [Session.at?_cons hn, NodeSpec.at?]
    generalize spec.inputs = inputs at hinputs
    generalize n.children = children at hinputs
    induction hinputs generalizing k with
    | nil => exact .none
    | cons hinput _ ih =>
      cases k with
      | zero => exact hinput path
      | succ k => exact ih k

end Corresponds

/-- Wherever the operator is built, what was there stays, and nodes are added that correspond to the
operator. -/
def Realized (spec : NodeSpec) (catalog : Catalog) : Prop :=
  ∀ {s s' : Session} {loose : List NodeId} {opens : List FragmentId} {i : NodeId},
    s.Built loose opens → spec.build catalog s = .ok (i, s') →
      s.Keeps s' ∧ spec.Corresponds catalog s' i

theorem realizedAll {specs : List NodeSpec} {loose is : List NodeId} {opens : List FragmentId}
    (hspecs : ∀ spec ∈ specs, spec.Realized catalog) (h : s.Built loose opens)
    (hs : buildAll catalog s specs = .ok (is, s')) :
    s.Keeps s' ∧ List.Forall₂ (Corresponds · catalog s') specs is := by
  induction specs generalizing s loose is with
  | nil =>
    obtain ⟨rfl, rfl⟩ := Prod.mk.inj (Except.ok.inj hs)
    exact ⟨.refl s, .nil⟩
  | cons spec rest ih =>
    simp only [buildAll, Outcome.bind_eq_ok, Outcome.pure_eq_ok] at hs
    obtain ⟨⟨i, s₁⟩, hi, ⟨js, s₂⟩, hjs, hs⟩ := hs
    obtain ⟨rfl, rfl⟩ := Prod.mk.inj hs
    obtain ⟨hspec, hrest⟩ := List.forall_mem_cons.mp hspecs
    have hbuilt := built h spec hi
    obtain ⟨hkeeps, hcorresponds⟩ := hspec h hi
    obtain ⟨hkeeps', hall⟩ := ih hrest hbuilt hjs
    exact ⟨hkeeps.trans hkeeps', .cons (hcorresponds.keep hkeeps' hbuilt.sound.coherent.tree) hall⟩

theorem realized (spec : NodeSpec) (catalog : Catalog) : spec.Realized catalog := by
  induction spec using NodeSpec.induction with
  | step spec ih =>
    intro s s' loose opens i h hs
    obtain ⟨is, s₁, hall, hkeeps, n, hn, rfl, hdescribes⟩ := exists_attached h hs
    obtain ⟨hkeeps₁, hinputs⟩ := realizedAll ih h hall
    have ht := (builtAll h spec.inputs hall).sound.coherent.tree
    refine ⟨hkeeps₁.trans hkeeps, .of_inputs hn hdescribes ?_⟩
    exact hinputs.imp fun _ _ hinput ↦ hinput.keep hkeeps ht

end NodeSpec

namespace Session

variable {catalog : Catalog} {s : Session} {spec : NodeSpec} {root : FragmentId} {top : Fragment}

namespace WellFormed

/-- A node is in the fragment of its parent, unless this is an exchange. -/
theorem fragment_of_child (h : s.WellFormed root) {p c : NodeId} {m n : Node}
    (hm : s.node? p = some m) (hexchange : m.isExchange = false) (hc : c ∈ m.children)
    (hn : s.node? c = some n) : n.fragment = m.fragment := by
  rcases h.coherent.edge hm hc hn (h.owned hn) with hsame | hkind | ⟨x, hx, rfl, hdest⟩
  · exact hsame.symm
  · rw [Node.isExchange, Node.input?_eq_some.mpr hkind] at hexchange
    cases hexchange
  · have hroot := h.destination.mpr ⟨x, hx, hdest⟩
    exact absurd ⟨m, hm, hc⟩ (h.root_parentless (hroot ▸ hx) p)

/-- A node is executed by the fragment that the nearest exchange above it receives rows from. -/
theorem executed (h : s.WellFormed root) {i : NodeId} {n m : Node} {path : List Nat}
    (hspec : spec.Corresponds catalog s i) (hn : s.node? i = some n)
    (hm : s.at? i path = some m) :
    (spec.enclosing? path = none → m.fragment = n.fragment) ∧
      ∀ above, spec.enclosing? path = some above →
        ∃ e, s.at? i above = some e ∧ e.kind = .exchange m.fragment := by
  induction path generalizing spec i n with
  | nil =>
    obtain rfl := Option.some.inj (hn.symm.trans hm)
    exact ⟨fun _ ↦ rfl, nofun⟩
  | cons k path ih =>
    obtain ⟨n', c, hn', hc, hm⟩ := at?_cons_eq_some.mp hm
    obtain rfl := Option.some.inj (hn.symm.trans hn')
    obtain ⟨input, hinput, hcorresponds⟩ := hspec.exists_input h.coherent.tree hn hc
    obtain ⟨b, hb, _⟩ := hcorresponds.exists_node [] rfl
    obtain ⟨hbelow, habove⟩ := ih hcorresponds hb hm
    have hmem := List.mem_of_getElem? hc
    obtain ⟨a, ha, hdescribes⟩ := hspec.exists_operator [] hn
    obtain rfl := Option.some.inj ha
    rw [NodeSpec.enclosing?, hinput, Option.bind_some]
    split
    · rename_i above hpath
      refine ⟨nofun, ?_⟩
      rintro _ ⟨⟩
      obtain ⟨e, he, hkind⟩ := habove above hpath
      exact ⟨e, at?_cons_eq_some.mpr ⟨n, c, hn, hc, he⟩, hkind⟩
    · rename_i hpath
      rw [hbelow hpath, ← hdescribes.isExchange]
      split
      · rename_i hexchange
        obtain ⟨f, hf⟩ := Option.isSome_iff_exists.mp hexchange
        have hkind := Node.input?_eq_some.mp hf
        refine ⟨nofun, ?_⟩
        rintro _ ⟨⟩
        exact ⟨n, hn, by rw [h.coherent.fragment_of_exchange hn hkind hmem hb, hkind]⟩
      · rename_i hexchange
        refine ⟨fun _ ↦ ?_, nofun⟩
        exact h.fragment_of_child hn (Bool.eq_false_of_not_eq_true hexchange) hmem hb

end WellFormed

/-- The plan of a tree of operators, with a fragment at its top. -/
structure Materializes (s : Session) (spec : NodeSpec) (catalog : Catalog) (root : FragmentId)
    (top : Fragment) : Prop where
  /-- Nodes and fragments carry the numbers of their positions. -/
  ordered : s.Ordered
  topmost : s.fragment? root = some top
  /-- At the end of each path there is an operator and the node for it, or neither: the children of
  a node are the nodes of the operator's inputs, in their order. -/
  corresponds : spec.Corresponds catalog s top.root
  /-- There are no other nodes. -/
  node {n : Node} : n ∈ s.nodes → ∃! path, s.at? top.root path = some n
  /-- There is a fragment for each exchange and one at the top. -/
  length_fragments : s.fragments.length = 1 + spec.exchangeCount
  fragment {f : FragmentId} {x : Fragment} : s.fragment? f = some x → f ≠ root →
    ∃! path, ∃ e, s.at? top.root path = some e ∧ e.kind = .exchange f
  /-- The fragment of an exchange begins at the exchange's child and sends its rows there. -/
  exchange {path : List Nat} {sent own : Partitioning} {input : NodeSpec} :
    spec.at? path = some (.exchange sent own input) →
      ∃ e f x, s.at? top.root path = some e ∧ e.kind = .exchange f ∧ f ≠ root ∧
        s.fragment? f = some x ∧ x.partitioning = own ∧ e.children = [x.root] ∧
        x.destination = some e.id ∧
        x.sink = some { fragment := f, kind := .stream e.id sent } ∧ x.parent = some e.fragment
  /-- Operators that are below no exchange are executed at the top. -/
  executed_top {path : List Nat} {n : Node} : s.at? top.root path = some n →
    spec.enclosing? path = none → n.fragment = root
  /-- Operators are executed by the fragment of the nearest exchange above them. -/
  executed {path above : List Nat} {n : Node} : s.at? top.root path = some n →
    spec.enclosing? path = some above →
      ∃ e, s.at? top.root above = some e ∧ e.kind = .exchange n.fragment
  /-- The children of a fragment are those that feed its exchanges, each once. -/
  children {f : FragmentId} {x : Fragment} : s.fragment? f = some x → x.children.Nodup ∧
    ∀ c, c ∈ x.children ↔ ∃ e ∈ s.nodes, e.kind = .exchange c ∧ e.fragment = f

namespace WellFormed

theorem existsUnique_at? (h : s.WellFormed root) (htop : s.fragment? root = some top) {i : NodeId}
    {n : Node} (hn : s.node? i = some n) : ∃! path, s.at? top.root path = some n := by
  obtain ⟨path, hpath⟩ := exists_at? (h.below htop hn) hn
  exact ⟨path, hpath, fun _ hpath' ↦ h.coherent.tree.at?_injective hpath' hpath⟩

/-- Apart from the one at the top, a fragment feeds one exchange. -/
theorem existsUnique_exchange (h : s.WellFormed root) (htop : s.fragment? root = some top)
    {f : FragmentId} {x : Fragment} (hx : s.fragment? f = some x) (hne : f ≠ root) :
    ∃! path, ∃ e, s.at? top.root path = some e ∧ e.kind = .exchange f := by
  cases hdest : x.destination with
  | none => exact absurd (h.destination.mpr ⟨x, hx, hdest⟩) hne
  | some i =>
    obtain ⟨e, he, hkind⟩ := h.coherent.destination hx hdest
    obtain ⟨path, hpath, hunique⟩ := h.existsUnique_at? htop he
    refine ⟨path, ⟨e, hpath, hkind⟩, ?_⟩
    rintro path' ⟨e', hpath', hkind'⟩
    have he' := node?_of_at? hpath'
    have hdest' := h.coherent.destination_eq he' hkind' hx
    obtain rfl := Option.some.inj (hdest.symm.trans hdest')
    obtain rfl := Option.some.inj (he.symm.trans he')
    exact hunique path' hpath'

theorem parent_eq (h : s.WellFormed root) {e : NodeId} {n : Node} {f : FragmentId} {x : Fragment}
    (hn : s.node? e = some n) (hkind : n.kind = .exchange f) (hx : s.fragment? f = some x) :
    x.parent = some n.fragment := by
  obtain ⟨y, _, _, hy, _, _, _, hparent⟩ := h.coherent.exchange hn hkind
  obtain rfl := Option.some.inj (hx.symm.trans hy)
  exact hparent.trans (Node.owner?_eq_some.mpr ⟨rfl, h.owned hn⟩)

theorem mem_children (h : s.WellFormed root) {f c : FragmentId} {x : Fragment}
    (hx : s.fragment? f = some x) :
    c ∈ x.children ↔ ∃ e ∈ s.nodes, e.kind = .exchange c ∧ e.fragment = f := by
  rw [h.coherent.linked.mem_children hx]
  constructor
  · intro hparent
    obtain ⟨y, hy, hparent⟩ := fragment?_of_parent? hparent
    obtain ⟨i, e, he, hkind, hfragment, _⟩ := h.coherent.exists_exchange hy hparent
    exact ⟨e, Numbered.mem_of_get? he, hkind, hfragment⟩
  · rintro ⟨e, he, hkind, rfl⟩
    have hn := h.coherent.ordered.nodes.get?_of_mem he
    obtain ⟨y, _, _, hy, _⟩ := h.coherent.exchange hn hkind
    rw [parent?_eq hy, h.parent_eq hn hkind hy]

theorem materializes (h : s.WellFormed root) (htop : s.fragment? root = some top)
    (hspec : spec.Corresponds catalog s top.root)
    (hlength : s.fragments.length = 1 + spec.exchangeCount) :
    s.Materializes spec catalog root top where
  ordered := h.coherent.ordered
  topmost := htop
  corresponds := hspec
  node hn := h.existsUnique_at? htop (h.coherent.ordered.nodes.get?_of_mem hn)
  length_fragments := hlength
  fragment hx hne := h.existsUnique_exchange htop hx hne
  exchange {path sent own input} ha := by
    obtain ⟨e, he, f, x, hkind, hx, hown, hdest, hsink⟩ := hspec.exists_node path ha
    have hn := node?_of_at? he
    obtain ⟨y, _, _, hy, hchildren, _⟩ := h.coherent.exchange hn hkind
    obtain rfl := Option.some.inj (hx.symm.trans hy)
    refine ⟨e, f, x, he, hkind, ?_, hx, hown, hchildren, hdest, hsink, h.parent_eq hn hkind hx⟩
    intro hroot
    obtain ⟨y, hy, hnone⟩ := h.destination.mp hroot
    obtain rfl := Option.some.inj (hx.symm.trans hy)
    cases hdest.symm.trans hnone
  executed_top hn hpath := by
    obtain ⟨m, hm, hfragment⟩ := h.coherent.root htop
    rw [(h.executed hspec hm hn).1 hpath, hfragment]
  executed hn hpath := by
    obtain ⟨m, hm, _⟩ := h.coherent.root htop
    exact (h.executed hspec hm hn).2 _ hpath
  children hx := ⟨h.coherent.linked.nodup hx, fun _ ↦ h.mem_children hx⟩

end WellFormed

end Session

namespace PlanSpec

variable {spec : PlanSpec} {catalog catalog' : Catalog} {cluster : Cluster} {options : Options}
  {root : FragmentId} {s : Session}

/-- Below the topmost fragment there is what the operators of the specification become. -/
theorem exists_top_of_buildFrom (h : spec.buildFrom catalog cluster options = .ok (root, s)) :
    ∃ top, s.fragment? root = some top ∧ top.partitioning = spec.partitioning ∧
      spec.root.Corresponds catalog s top.root := by
  simp only [buildFrom, Outcome.bind_eq_ok, Outcome.pure_eq_ok] at h
  obtain ⟨⟨i, s₁⟩, hi, ⟨f, s₂⟩, hcut, kind, _, h⟩ := h
  obtain ⟨rfl, rfl⟩ := Prod.mk.inj h
  have hempty : Session.Built { options, cluster := spec.clusterOr cluster } [] [] :=
    .empty rfl rfl
  have hbuilt := spec.root.built hempty hi
  obtain ⟨_, hspec⟩ := spec.root.realized catalog hempty hi
  obtain ⟨hkeeps, x, hx, rfl, hpartitioning, hdest⟩ := hbuilt.exists_cut hcut
  have hsink := Session.Keeps.setSink hx hdest kind
  have htree := (hbuilt.cutFragment hcut).sound.coherent.tree
  refine ⟨{ x with sink := some { fragment := f, kind } }, ?_, hpartitioning,
    (hspec.keep hkeeps hbuilt.sound.coherent.tree).keep hsink htree⟩
  rw [Session.fragment?_setSink, if_pos rfl, hx]
  rfl

/-- What is built from a specification is the plan of its operators, and the topmost fragment is
spread as the specification says. -/
theorem build_materializes
    (hbuild : spec.build catalog cluster options = (.ok (root, s), catalog')) :
    ∃ top, top.partitioning = spec.partitioning ∧
      s.Materializes spec.root catalog' root top := by
  have hfrom := buildFrom_of_build hbuild
  obtain ⟨_, hlength⟩ := shaped_of_buildFrom hfrom
  obtain ⟨top, htop, hpartitioning, hspec⟩ := exists_top_of_buildFrom hfrom
  exact ⟨top, hpartitioning, (wellFormed_of_buildFrom hfrom).materializes htop hspec hlength⟩

/-- The row on the build side of the first join is in the fragment below the exchange. -/
theorem build_materializes_lateral : ∃ s top e n,
    lateral.build {} {} {} = (.ok (⟨1⟩, s), {}) ∧ s.Materializes lateral.root {} ⟨1⟩ top ∧
    s.at? top.root [0, 1] = some e ∧ s.at? top.root [0, 1, 0] = some n ∧ n.kind = .singularRow ∧
    e.kind = .exchange n.fragment := by
  obtain ⟨s, _, hs, _⟩ := exists_build_lateral
  obtain ⟨top, _, h⟩ := build_materializes hs
  obtain ⟨n, hn, hkind⟩ := h.corresponds.exists_node [0, 1, 0] rfl
  obtain ⟨e, he, hexchange⟩ := h.executed hn rfl
  exact ⟨s, top, e, n, hs, h, he, hn, hkind, hexchange⟩

end PlanSpec

end QueryPlanning
