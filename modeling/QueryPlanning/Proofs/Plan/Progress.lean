import QueryPlanning.Proofs.Plan.Assembly

/-!
# Plans in the course of being split

While a plan is split, the fragments without an exchange to feed are the roots of the plans so far:
the first is the top of the plan that came in, and each other one begins at the build side of a
join, to whose table its sink belongs. A node and its child are therefore in the same fragment, or
the node is an exchange above a fragment, or the node is a join whose build side is split off.
-/

namespace QueryPlanning

/-- No join at or below a node has a table. -/
def Session.Pristine (s : Session) (b : NodeId) : Prop :=
  ∀ j n join, s.Below b j → s.node? j = some n → n.kind = .join join →
    join.table.isValid = false

namespace Splitting

/-- The state between two steps of a split, below the given top. Tables and plans are numbered in
the order in which the plans are split off. -/
structure Progress (st : Splitting) (top : NodeId) : Prop where
  coherent : st.session.Coherent
  owned {i : NodeId} {n : Node} : st.session.node? i = some n → n.fragment ≠ .invalid
  nodup : st.roots.Nodup
  mem_roots {f : FragmentId} :
    f ∈ st.roots ↔ ∃ x, st.session.fragment? f = some x ∧ x.destination = none
  head : ∃ f x, st.roots[0]? = some f ∧ st.session.fragment? f = some x ∧ x.root = top
  top (p : NodeId) : ¬st.session.Child p top
  build {k : Nat} {f : FragmentId} : st.roots[k + 1]? = some f →
    ∃ x j n join keys, st.session.fragment? f = some x ∧ st.session.node? j = some n ∧
      n.kind = .join join ∧ join.table = .ofNat k ∧ n.children[1]? = some x.root ∧
      join.buildKeys = .ok keys ∧
      x.sink = some { fragment := f, kind := .joinBuild join.table keys }
  tabled {j : NodeId} {n : Node} {join : Join} : st.session.node? j = some n →
    n.kind = .join join → join.table.isValid = true →
      ∃ k f x, join.table = .ofNat k ∧ st.roots[k + 1]? = some f ∧
        st.session.fragment? f = some x ∧ n.children[1]? = some x.root
  plan {k : Nat} {f : FragmentId} {x : Fragment} : st.roots[k]? = some f →
    st.session.fragment? f = some x → x.plan = .ofNat k ∧ x.cohort.isValid = true
  tables : st.tables.next + 1 = st.roots.length
  plans : st.plans.next = st.roots.length
  cohorts : 0 ≤ st.cohorts.next

namespace Progress

variable {st : Splitting} {top : NodeId}

/-- The ways in which an edge of the tree of nodes is realised. -/
theorem edge (h : st.Progress top) {p c : NodeId} {m n : Node} (hm : st.session.node? p = some m)
    (hc : c ∈ m.children) (hn : st.session.node? c = some n) :
    m.fragment = n.fragment ∨ m.kind = .exchange n.fragment ∨
      ∃ join, m.kind = .join join ∧ join.table.isValid = true ∧ m.children[1]? = some c := by
  rcases h.coherent.edge hm hc hn (h.owned hn) with hsame | hkind | ⟨x, hx, rfl, hdest⟩
  · exact .inl hsame
  · exact .inr (.inl hkind)
  · obtain ⟨k, hk⟩ := List.mem_iff_getElem?.mp (h.mem_roots.mpr ⟨x, hx, hdest⟩)
    cases k with
    | zero =>
      obtain ⟨f, y, hf, hy, rfl⟩ := h.head
      obtain rfl := Option.some.inj (hk.symm.trans hf)
      obtain rfl := Option.some.inj (hx.symm.trans hy)
      exact absurd ⟨m, hm, hc⟩ (h.top p)
    | succ k =>
      obtain ⟨y, j, m', join, _, hy, hm', hkind, htable, hchild, _⟩ := h.build hk
      obtain rfl := Option.some.inj (hx.symm.trans hy)
      obtain rfl := h.coherent.tree.unique ⟨m, hm, hc⟩ ⟨m', hm', List.mem_of_getElem? hchild⟩
      obtain rfl := Option.some.inj (hm.symm.trans hm')
      refine .inr (.inr ⟨join, hkind, ?_, hchild⟩)
      rw [htable]
      exact Id.isValid_ofNat k

/-- Where no join has a table, nodes down to the exchanges are in one fragment. -/
theorem owned_of_pristine (h : st.Progress top) {b : NodeId} {n : Node}
    (hb : st.session.Pristine b) (hn : st.session.node? b = some n) :
    st.session.Owned b (some n.fragment) := by
  intro i m hin
  induction hin generalizing m with
  | refl =>
    intro hm
    obtain rfl := Option.some.inj (hn.symm.trans hm)
    exact Node.owner?_eq_some.mpr ⟨rfl, h.owned hn⟩
  | @tail p c hp hstep ih =>
    intro hc
    obtain ⟨q, hq, hinner⟩ := hstep
    have howner := ih q hq
    rw [Node.owner?_eq_some] at howner ⊢
    rcases h.edge hq (Node.inner_subset q hinner) hc with hsame | hkind | ⟨join, hkind, hvalid, _⟩
    · rw [← hsame]
      exact howner
    · rw [Node.inner_of_exchange hkind] at hinner
      cases hinner
    · rw [hb p q join (Session.Reach.mono Node.inner_subset hp) hq hkind] at hvalid
      cases hvalid

/-- The build side of a join without table begins in the fragment of the join, and no fragment
begins there. -/
theorem build_side (h : st.Progress top) {j b : NodeId} {n : Node} {join : Join}
    (hn : st.session.node? j = some n) (hkind : n.kind = .join join)
    (htable : join.table.isValid = false) (hb : n.children[1]? = some b) :
    (∃ m, st.session.node? b = some m ∧ m.fragment = n.fragment) ∧
      ∀ f y, st.session.fragment? f = some y → y.root ≠ b := by
  have hmem := List.mem_of_getElem? hb
  obtain ⟨m, hm⟩ := h.coherent.tree.child ⟨n, hn, hmem⟩
  have hsame : n.fragment = m.fragment := by
    rcases h.edge hn hmem hm with hsame | hkind' | ⟨join', hkind', hvalid, _⟩
    · exact hsame
    · cases hkind.symm.trans hkind'
    · obtain rfl := NodeKind.join.inj (hkind.symm.trans hkind')
      rw [htable] at hvalid
      cases hvalid
  refine ⟨⟨m, hm, hsame.symm⟩, ?_⟩
  rintro f y hy rfl
  obtain ⟨m', hm', rfl⟩ := h.coherent.root hy
  obtain rfl := Option.some.inj (hm.symm.trans hm')
  have hbelow := h.coherent.below_root hn (hsame ▸ hy)
  exact h.coherent.tree.not_below_child ⟨n, hn, hmem⟩ hbelow

/-- All nodes down to the exchanges below the build side of a join without table are in the fragment
of the join, if no join there has a table. -/
theorem owned_build (h : st.Progress top) {j b : NodeId} {n : Node} {join : Join}
    (hn : st.session.node? j = some n) (hkind : n.kind = .join join)
    (htable : join.table.isValid = false) (hb : n.children[1]? = some b)
    (hpristine : st.session.Pristine b) : st.session.Owned b (some n.fragment) := by
  obtain ⟨⟨m, hm, hsame⟩, _⟩ := h.build_side hn hkind htable hb
  rw [← hsame]
  exact h.owned_of_pristine hpristine hm

end Progress

end Splitting

end QueryPlanning
