import QueryPlanning.Proofs.Plan.NodePaths
import QueryPlanning.Proofs.Scan.ScannedRanges
import QueryPlanning.Proofs.Spec.Build

/-!
# The nodes of operators

An operator is built in two steps: its inputs are built, one after the other, and one node is added
above theirs. What was there before stays as it is. A node may only be given to a fragment and have
its hosts estimated again, and a fragment that feeds an exchange goes on to send its rows there.
-/

namespace QueryPlanning

namespace Node

/-- What stays of a node as it was added. -/
def operation (n : Node) : NodeId × NodeKind × List NodeId × Int × List Expr :=
  (n.id, n.kind, n.children, n.limit, n.conjuncts)

section Operation

variable {m n : Node} (h : m.operation = n.operation)

include h

theorem operation_id : m.id = n.id := congrArg (·.1) h

theorem operation_kind : m.kind = n.kind := congrArg (·.2.1) h

theorem operation_children : m.children = n.children := congrArg (·.2.2.1) h

theorem operation_limit : m.limit = n.limit := congrArg (·.2.2.2.1) h

theorem operation_conjuncts : m.conjuncts = n.conjuncts := congrArg (·.2.2.2.2) h

end Operation

end Node

/-- How the rows of a fragment are spread, and where they go. -/
def Fragment.feed (x : Fragment) : Partitioning × Option NodeId × Option Sink :=
  (x.partitioning, x.destination, x.sink)

namespace Session

variable {s s' s'' : Session}

/-- Nodes stay but for their fragments and hosts, and fragments that feed exchanges go on to send
their rows there. -/
structure Keeps (s s' : Session) : Prop where
  node {i : NodeId} {n : Node} : s.node? i = some n →
      ∃ n', s'.node? i = some n' ∧ n'.operation = n.operation
  fragment {f : FragmentId} {x : Fragment} :
    s.fragment? f = some x → x.destination.isSome →
      ∃ x', s'.fragment? f = some x' ∧ x'.feed = x.feed

namespace Keeps

theorem trans (h : s.Keeps s') (h' : s'.Keeps s'') : s.Keeps s'' where
  node hn := by
    obtain ⟨n', hn', hsame⟩ := h.node hn
    obtain ⟨n'', hn'', hsame'⟩ := h'.node hn'
    exact ⟨n'', hn'', hsame'.trans hsame⟩
  fragment hx hdest := by
    obtain ⟨x', hx', hfeed⟩ := h.fragment hx hdest
    have hdest' : x'.destination = _ := congrArg (·.2.1) hfeed
    obtain ⟨x'', hx'', hfeed'⟩ := h'.fragment hx' (hdest' ▸ hdest)
    exact ⟨x'', hx'', hfeed'.trans hfeed⟩

theorem of_eq (hnodes : s'.nodes = s.nodes) (hfragments : s'.fragments = s.fragments) :
    s.Keeps s' where
  node {i n} hn := by
    refine ⟨n, ?_, rfl⟩
    rw [node?, hnodes]
    exact hn
  fragment {f x} hx _ := by
    refine ⟨x, ?_, rfl⟩
    rw [fragment?, hfragments]
    exact hx

theorem refl (s : Session) : s.Keeps s := of_eq rfl rfl

theorem add (ho : s.Ordered) {node : NodeId → Node} (hid : (node s.nextNode).id = s.nextNode) :
    s.Keeps (s.add node).2 where
  node {i n} hn := by
    refine ⟨n, ?_, rfl⟩
    rw [ho.node?_add hid, if_neg (ho.nextNode_ne hn), hn]
  fragment {f x} hx _ := ⟨x, hx, rfl⟩

theorem modifyNode {g : Node → Node} (hg : ∀ n, (g n).operation = n.operation) (s : Session)
    (i : NodeId) : s.Keeps (s.modifyNode i g) where
  node {j n} hn := by
    have hmodify := node?_modifyNode (fun n ↦ Node.operation_id (hg n)) s i j
    rw [hn] at hmodify
    split at hmodify
    · exact ⟨g n, hmodify, hg n⟩
    · exact ⟨n, hmodify, rfl⟩
  fragment {f x} hx _ := ⟨x, hx, rfl⟩

/-- A sink may be set where there is no exchange. -/
theorem setSink {f : FragmentId} {x : Fragment} (hx : s.fragment? f = some x)
    (hdest : x.destination = none) (kind : SinkKind) : s.Keeps (s.setSink f kind) where
  node {i n} hn := ⟨n, hn, rfl⟩
  fragment {g y} hy hsome := by
    have hne : g ≠ f := by
      rintro rfl
      rw [Option.some.inj (hy.symm.trans hx), hdest] at hsome
      cases hsome
    refine ⟨y, ?_, rfl⟩
    rw [fragment?_setSink, if_neg hne, hy]

theorem of_recut {x : Fragment} {inputs : List FragmentId} (h : s.Recut s' x inputs) :
    s.Keeps s' where
  node {i n} hn := by
    by_cases hi : s.Reach Node.inner x.root i
    · exact ⟨_, h.moved hi hn, rfl⟩
    · exact ⟨n, (h.kept hi).trans hn, rfl⟩
  fragment {f y} hy _ := by
    refine ⟨_, h.parted.fragment hy, ?_⟩
    simp [Fragment.feed]

theorem of_grown {n₀ : Node} (h : s.Grown s' n₀) (ho : s.Ordered) : s.Keeps s' where
  node {i n} hn := ⟨n, h.old ho hn, rfl⟩
  fragment {f x} hx hsome := by
    obtain ⟨partitioning, hfragment⟩ := h.fragment
    have hinput : n₀.input? ≠ some f := by
      intro hinput
      obtain ⟨y, hy, hnone, _⟩ := h.input hinput
      rw [Option.some.inj (hx.symm.trans hy), hnone] at hsome
      cases hsome
    refine ⟨x, ?_, rfl⟩
    rw [hfragment, if_neg hinput, hx]

/-- The paths below a node stay. -/
theorem at? (h : s.Keeps s') (ht : s.Treelike) {i : NodeId} {n : Node} (hn : s.node? i = some n)
    (path : List Nat) : (s'.at? i path).map Node.operation = (s.at? i path).map Node.operation := by
  induction path generalizing i n with
  | nil =>
    obtain ⟨n', hn', hsame⟩ := h.node hn
    rw [at?_nil, at?_nil, hn, hn', Option.map_some, Option.map_some, hsame]
  | cons k path ih =>
    obtain ⟨n', hn', hsame⟩ := h.node hn
    rw [at?_cons hn', at?_cons hn, Node.operation_children hsame]
    cases hc : n.children[k]? with
    | none => rfl
    | some c =>
      obtain ⟨m, hm⟩ := ht.child ⟨n, hn, List.mem_of_getElem? hc⟩
      exact ih hm

end Keeps

variable {loose : List NodeId} {opens : List FragmentId} {root : NodeId}
  {partitioning : Partitioning} {f : FragmentId}

/-- The fragment that is cut begins at the node and is spread as asked for. -/
theorem Built.exists_cut (h : s.Built (root :: loose) opens)
    (hs : s.cut root partitioning = .ok (f, s')) : s.Keeps s' ∧
      ∃ x, s'.fragment? f = some x ∧ x.root = root ∧ x.partitioning = partitioning ∧
        x.destination = none := by
  simp only [Session.cut, Outcome.bind_eq_ok, Outcome.pure_eq_ok] at hs
  obtain ⟨⟨g, s₁⟩, hcreate, hs⟩ := hs
  obtain ⟨rfl, rfl⟩ := Prod.mk.inj hs
  have hsound := h.sound
  obtain ⟨inputs, hr, _⟩ :=
    hsound.coherent.recut_of_free (hsound.owned List.mem_cons_self) hcreate
  have hcut : ∃ x, s₁.fragment? g = some x ∧ x.root = root ∧ x.partitioning = partitioning ∧
      x.destination = none := by
    refine ⟨_, hr.cut, ?_⟩
    simp
  split
  · exact ⟨.of_recut hr, hcut⟩
  · refine ⟨(Keeps.of_recut hr).trans (.modifyNode (fun _ ↦ ?_) s₁ root), hcut⟩
    rfl

end Session

namespace NodeSpec

/-- The operators whose rows an operator works on, in the order of its node's children. -/
def inputs : NodeSpec → List NodeSpec
  | .scan .. | .unnest _ | .singularRow | .emptySet => []
  | .join _ probe build => [probe, build]
  | .subplan input evaluated => [input, evaluated]
  | .exchange _ _ input | .aggregation _ input | .select _ input | .sort _ _ input => [input]
  | .union inputs => inputs

/-- The node does what the operator says. An exchange receives rows that another fragment sends to
it. -/
def Describes (catalog : Catalog) (s : Session) : NodeSpec → Node → Prop
  | .scan table predicates columns limit, n => ∃ sc, n.kind = .scan sc ∧
      catalog.tableNamed table = .ok sc.table ∧ sc.predicates = predicates ∧
      sc.columns = columns ∧ n.limit = limit
  | .join spec _ _, n => n.kind = .join { spec with table := .invalid }
  | .exchange sent own _, n => ∃ f x, n.kind = .exchange f ∧ s.fragment? f = some x ∧
      x.partitioning = own ∧ x.destination = some n.id ∧
      x.sink = some { fragment := f, kind := .stream n.id sent }
  | .subplan _ _, n => n.kind = .subplan
  | .aggregation spec _, n => n.kind = .aggregation spec
  | .select conjuncts _, n => n.kind = .select ∧ n.conjuncts = conjuncts
  | .sort keys limit _, n => n.kind = .sort keys ∧ n.limit = limit
  | .union _, n => n.kind = .union
  | .unnest collection, n => n.kind = .unnest collection
  | .singularRow, n => n.kind = .singularRow
  | .emptySet, n => n.kind = .emptySet

variable {catalog : Catalog} {s s' : Session} {spec : NodeSpec}

theorem Describes.keep {m n : Node} (h : spec.Describes catalog s n) (hkeeps : s.Keeps s')
    (hsame : m.operation = n.operation) : spec.Describes catalog s' m := by
  have hkind := Node.operation_kind hsame
  cases spec
  case scan =>
    obtain ⟨sc, hsc, htable, hpredicates, hcolumns, hlimit⟩ := h
    exact ⟨sc, hkind.trans hsc, htable, hpredicates, hcolumns,
      (Node.operation_limit hsame).trans hlimit⟩
  case exchange =>
    obtain ⟨f, x, hf, hx, hown, hdest, hsink⟩ := h
    obtain ⟨x', hx', hfeed⟩ := hkeeps.fragment hx (by rw [hdest]; rfl)
    obtain ⟨hown', hdest', hsink'⟩ : x'.partitioning = x.partitioning ∧
        x'.destination = x.destination ∧ x'.sink = x.sink := by
      simpa [Fragment.feed] using hfeed
    refine ⟨f, x', hkind.trans hf, hx', hown'.trans hown, ?_, ?_⟩
    · rw [hdest', hdest, Node.operation_id hsame]
    · rw [hsink', hsink, Node.operation_id hsame]
  case select => exact ⟨hkind.trans h.1, (Node.operation_conjuncts hsame).trans h.2⟩
  case sort => exact ⟨hkind.trans h.1, (Node.operation_limit hsame).trans h.2⟩
  all_goals exact hkind.trans h

/-- The node of an operator has been added above the nodes of its inputs. -/
structure Attached (spec : NodeSpec) (catalog : Catalog) (ids : List NodeId) (s : Session)
    (id : NodeId) (s' : Session) : Prop where
  keeps : s.Keeps s'
  node : ∃ n, s'.node? id = some n ∧ n.children = ids ∧ spec.Describes catalog s' n

namespace Attached

variable {loose ids : List NodeId} {opens : List FragmentId} {id : NodeId}

theorem of_add (ho : s.Ordered) {node : NodeId → Node} (hs : s.add node = (id, s'))
    (hid : (node s.nextNode).id = s.nextNode) (hchildren : (node s.nextNode).children = ids)
    (hdescribes : spec.Describes catalog s' (node s.nextNode)) :
    spec.Attached catalog ids s id s' := by
  obtain ⟨rfl, rfl⟩ := Prod.mk.inj hs
  refine ⟨.add ho hid, _, ?_, hchildren, hdescribes⟩
  exact (ho.node?_add hid s.nextNode).trans (if_pos rfl)

theorem addUnary (ho : s.Ordered) {kind : NodeKind} {limit : Int} {conjuncts : List Expr}
    (hs : s.addUnary kind ids limit conjuncts = .ok (id, s'))
    (hdescribes : ∀ n : Node, n.kind = kind → n.limit = limit → n.conjuncts = conjuncts →
      spec.Describes catalog s' n) : spec.Attached catalog ids s id s' := by
  simp only [Session.addUnary, Outcome.bind_eq_ok, Outcome.pure_eq_ok] at hs
  obtain ⟨input, _, hs⟩ := hs
  exact of_add ho hs rfl rfl (hdescribes _ rfl rfl rfl)

theorem addJoin (ho : s.Ordered) {join : Join} {probe side : NodeSpec} {p b : NodeId}
    (hs : s.addJoin { join with table := .invalid } p b = .ok (id, s')) :
    (NodeSpec.join join probe side).Attached catalog [p, b] s id s' := by
  simp only [Session.addJoin, Outcome.bind_eq_ok, Outcome.pure_eq_ok] at hs
  obtain ⟨input, _, hs⟩ := hs
  exact of_add ho hs rfl rfl rfl

theorem addUnion (ho : s.Ordered) {inputs : List NodeSpec}
    (hs : s.addUnion ids = .ok (id, s')) :
    (NodeSpec.union inputs).Attached catalog ids s id s' := by
  simp only [Session.addUnion, Outcome.bind_eq_ok, Outcome.pure_eq_ok] at hs
  obtain ⟨children, _, hs⟩ := hs
  exact of_add ho hs rfl rfl rfl

theorem addScan (ho : s.Ordered) {table : String} {t : Table} {predicates : List KeyPredicate}
    {columns : Nat} {limit : Int} (ht : catalog.tableNamed table = .ok t)
    (hs : s.addScan t predicates columns limit = (.ok id, s')) :
    (NodeSpec.scan table predicates columns limit).Attached catalog [] s id s' := by
  obtain ⟨planned, hosts, hruns, hadd⟩ := Session.exists_planned hs
  obtain ⟨_, rfl, hpredicates, hcolumns, _⟩ := Scan.runs_plan hruns
  have ho' : ({ s with hosts } : Session).Ordered := ⟨ho.nodes, ho.fragments⟩
  have hnumbered : s.Keeps { s with hosts } := .of_eq rfl rfl
  have hattached : (NodeSpec.scan table predicates columns limit).Attached catalog []
      { s with hosts } id s' :=
    of_add ho' hadd rfl rfl ⟨planned.scan, rfl, ht, hpredicates, hcolumns, rfl⟩
  exact ⟨hnumbered.trans hattached.keeps, hattached.node⟩

theorem cutExchange {root : NodeId} (h : s.Built (root :: loose) opens) {sent own : Partitioning}
    {input : NodeSpec} (hs : s.cutExchange root sent own = .ok (id, s')) :
    (NodeSpec.exchange sent own input).Attached catalog [root] s id s' := by
  simp only [Session.cutExchange, Outcome.bind_eq_ok, Outcome.pure_eq_ok] at hs
  obtain ⟨⟨f, s₁⟩, hcut, ⟨e, s₂⟩, hexchange, hs⟩ := hs
  obtain ⟨rfl, rfl⟩ := Prod.mk.inj hs
  obtain ⟨hkeeps, x, hx, hroot, hown, _⟩ := h.exists_cut hcut
  have hsound := (h.cutFragment hcut).sound
  obtain ⟨rfl, n₀, y, hgrown, hkind, hy, hchildren, hfed⟩ := hsound.grown_of_addExchange hexchange
  obtain rfl := Option.some.inj (hx.symm.trans hy)
  have hgrows := Session.Keeps.of_grown hgrown hsound.coherent.ordered
  have hdescribes : (NodeSpec.exchange sent own input).Describes catalog s₂ n₀ := by
    refine ⟨f, _, hkind, hfed, hown, ?_, ?_⟩
    · rw [Session.id_of_node? hgrown.new]
      rfl
    · rw [Session.id_of_node? hgrown.new]
      rfl
  let estimate : Node → Node := ({ · with
    hosts := if sent.isPartitioned then Number.wrapSigned 32 s₂.cluster.size else 1 })
  have hestimate : s₂.Keeps (s₂.modifyNode s₁.nextNode estimate) := by
    apply Session.Keeps.modifyNode
    exact fun _ ↦ rfl
  obtain ⟨n, hn, hsame⟩ := hestimate.node hgrown.new
  refine ⟨(hkeeps.trans hgrows).trans hestimate, n, hn, ?_, hdescribes.keep hestimate hsame⟩
  rw [Node.operation_children hsame, hchildren, hroot]

end Attached

variable {loose ids : List NodeId} {opens : List FragmentId} {id : NodeId}

/-- Adds the node of an operator above the nodes of its inputs. -/
def addNode (catalog : Catalog) (s : Session) (ids : List NodeId) :
    NodeSpec → Except Error (NodeId × Session)
  | .scan table predicates columns limit => do
    let t ← catalog.tableNamed table
    let (id, s) := s.addScan t predicates columns limit
    return (← id, s)
  | .join spec _ _ =>
    match ids with
    | [probe, side] => s.addJoin { spec with table := .invalid } probe side
    | _ => .error .brokenLink
  | .exchange sent own _ =>
    match ids with
    | [root] => s.cutExchange root sent own
    | _ => .error .brokenLink
  | .subplan _ _ => s.addUnary .subplan ids (-1) []
  | .aggregation spec _ => s.addUnary (.aggregation spec) ids (-1) []
  | .select conjuncts _ => s.addUnary .select ids (-1) conjuncts
  | .sort keys limit _ => s.addUnary (.sort keys) ids limit []
  | .union _ => s.addUnion ids
  | .unnest collection => .ok (s.addSource (.unnest collection) (-1))
  | .singularRow => .ok (s.addSource .singularRow 1)
  | .emptySet => .ok (s.addSource .emptySet 0)

/-- An operator is built by building its inputs and adding its node above theirs. -/
theorem build_eq (catalog : Catalog) (s : Session) (spec : NodeSpec) :
    spec.build catalog s =
      buildAll catalog s spec.inputs >>= fun (ids, s) ↦ spec.addNode catalog s ids := by
  cases spec <;> simp [build, buildAll, inputs, addNode, bind_assoc]
  all_goals rfl

theorem exists_inputs (hs : spec.build catalog s = .ok (id, s')) :
    ∃ ids s₁, buildAll catalog s spec.inputs = .ok (ids, s₁) ∧
      spec.addNode catalog s₁ ids = .ok (id, s') := by
  rw [build_eq, Outcome.bind_eq_ok] at hs
  obtain ⟨⟨ids, s₁⟩, hall, hs⟩ := hs
  exact ⟨ids, s₁, hall, hs⟩

theorem length_buildAll {specs : List NodeSpec} (hs : buildAll catalog s specs = .ok (ids, s')) :
    ids.length = specs.length := by
  induction specs generalizing s ids with
  | nil =>
    obtain ⟨rfl, _⟩ := Prod.mk.inj (Except.ok.inj hs)
    rfl
  | cons spec rest ih =>
    simp only [buildAll, Outcome.bind_eq_ok, Outcome.pure_eq_ok] at hs
    obtain ⟨⟨i, s₁⟩, _, ⟨js, s₂⟩, hjs, hs⟩ := hs
    obtain ⟨rfl, rfl⟩ := Prod.mk.inj hs
    rw [List.length_cons, List.length_cons, ih hjs]

theorem exists_attached (h : s.Built loose opens) (hs : spec.build catalog s = .ok (id, s')) :
    ∃ ids s₁, buildAll catalog s spec.inputs = .ok (ids, s₁) ∧
      spec.Attached catalog ids s₁ id s' := by
  obtain ⟨ids, s₁, hall, hs⟩ := exists_inputs hs
  have hbuilt := builtAll h spec.inputs hall
  have ho := hbuilt.sound.coherent.ordered
  have source (hinputs : spec.inputs = []) : ids = [] := by
    rw [← List.length_eq_zero_iff, length_buildAll hall, hinputs, List.length_nil]
  refine ⟨ids, s₁, hall, ?_⟩
  cases spec with
  | scan table predicates columns limit =>
    simp only [addNode, Outcome.bind_eq_ok, Outcome.pure_eq_ok] at hs
    obtain ⟨t, ht, i, hi, hs⟩ := hs
    obtain ⟨rfl, rfl⟩ := Prod.mk.inj hs
    rw [source rfl]
    exact .addScan ho ht (Prod.ext hi rfl)
  | join spec probe side =>
    simp only [addNode] at hs
    split at hs
    · exact .addJoin ho hs
    · cases hs
  | exchange sent own input =>
    simp only [addNode] at hs
    split at hs
    · exact .cutExchange hbuilt hs
    · cases hs
  | subplan input evaluated => exact .addUnary ho hs fun _ hkind _ _ ↦ hkind
  | aggregation spec input => exact .addUnary ho hs fun _ hkind _ _ ↦ hkind
  | select conjuncts input =>
    exact .addUnary ho hs fun _ hkind _ hconjuncts ↦ ⟨hkind, hconjuncts⟩
  | sort keys limit input => exact .addUnary ho hs fun _ hkind hlimit _ ↦ ⟨hkind, hlimit⟩
  | union inputs => exact .addUnion ho hs
  | unnest collection =>
    rw [source rfl]
    exact .of_add ho (Except.ok.inj hs) rfl rfl rfl
  | singularRow =>
    rw [source rfl]
    exact .of_add ho (Except.ok.inj hs) rfl rfl rfl
  | emptySet =>
    rw [source rfl]
    exact .of_add ho (Except.ok.inj hs) rfl rfl rfl

end NodeSpec

end QueryPlanning
