import QueryPlanning.Proofs.Plan.ParallelPlans

/-!
# The nodes of a fragment

Who goes through a fragment, from its root down to the exchanges, passes over the children that
another fragment executes. In a coherent session this leads to all nodes of the fragment and to no
others, to each of them once, so that the fragments together hold every node once.
-/

namespace QueryPlanning.Session

variable {s : Session} {roots : List FragmentId}

/-- The nodes at and below a node that a fragment executes, each before its children. -/
def executedWithin (s : Session) (fragment : FragmentId) : Nat → NodeId →
    Except Error (List Node)
  | 0, _ => .error .brokenLink
  | depth + 1, i => do
    let n ← s.node i
    if n.fragment ≠ fragment then return []
    if n.isExchange then return [n]
    return n :: (← n.children.mapM (s.executedWithin fragment depth)).flatten

/-- The nodes that a fragment executes. -/
def executed (s : Session) (fragment : FragmentId) : Except Error (List Node) := do
  s.executedWithin fragment s.nodes.length (← s.fragment fragment).root

/-- The children that the fragment of a node executes along with it. -/
def own (s : Session) (n : Node) : List NodeId :=
  n.inner.filter fun c ↦ (s.node? c).any (·.fragment = n.fragment)

theorem own_sublist (s : Session) (n : Node) : (s.own n).Sublist n.children :=
  List.filter_sublist.trans n.inner_sublist

theorem mem_own {n : Node} {c : NodeId} :
    c ∈ s.own n ↔ c ∈ n.inner ∧ ∃ m, s.node? c = some m ∧ m.fragment = n.fragment := by
  rw [own, List.mem_filter, Option.any_eq_true]
  simp only [decide_eq_true_eq]

theorem own_of_exchange {n : Node} (h : n.isExchange = true) : s.own n = [] := by
  rw [own, Node.inner, if_pos h]
  rfl

/-- The walk through a fragment is one over the nodes that it executes. -/
theorem executedWithin_eq_ok (ht : s.Treelike) (ho : s.Ordered) {d : Nat} {i : NodeId} {n : Node}
    {l : List Node} (hn : s.node? i = some n) (hd : i.val < d)
    (h : s.walkWithin s.own d i = .ok l) : s.executedWithin n.fragment d i = .ok l := by
  induction d generalizing i n l with
  | zero => cases h
  | succ d ih =>
    obtain ⟨m, ls, hm, hls, rfl⟩ := walkWithin_succ_eq_ok.mp h
    obtain rfl := Option.some.inj (hn.symm.trans hm)
    rw [executedWithin, node_eq_ok.mpr hn]
    simp only [Outcome.ok_bind, ne_eq, not_true, if_false]
    by_cases hexchange : n.isExchange
    · rw [own_of_exchange hexchange] at hls
      obtain rfl := Outcome.pure_eq_ok.mp hls
      rw [if_pos hexchange]
      rfl
    · have hown : s.own n =
          n.children.filter fun c ↦ (s.node? c).any (·.fragment = n.fragment) := by
        rw [own, Node.inner, if_neg hexchange]
      rw [hown] at hls
      have child (c : NodeId) (hc : c ∈ n.children) : ∃ m, s.node? c = some m ∧ c.val < d := by
        have hchild : s.Child i c := ⟨n, hn, hc⟩
        obtain ⟨m, hm⟩ := ht.child hchild
        have hlt := ht.lt hchild
        exact ⟨m, hm, by omega⟩
      have kept (c : NodeId) (hc : c ∈ n.children)
          (hsame : (s.node? c).any (·.fragment = n.fragment) = true) (b : List Node)
          (hb : s.walkWithin s.own d c = .ok b) : s.executedWithin n.fragment d c = .ok b := by
        obtain ⟨m, hm, hlt⟩ := child c hc
        rw [hm] at hsame
        rw [← of_decide_eq_true hsame]
        exact ih hm hlt hb
      have left (c : NodeId) (hc : c ∈ n.children)
          (hother : (s.node? c).any (·.fragment = n.fragment) = false) :
          s.executedWithin n.fragment d c = .ok [] := by
        obtain ⟨m, hm, hlt⟩ := child c hc
        rw [hm] at hother
        have hval := ho.val_nonneg hm
        obtain ⟨d, rfl⟩ := Nat.exists_eq_succ_of_ne_zero (show d ≠ 0 by omega)
        rw [executedWithin, node_eq_ok.mpr hm]
        exact if_pos (of_decide_eq_false hother)
      obtain ⟨cs, hcs, heq⟩ := Outcome.exists_mapM_of_filter hls kept left
      rw [if_neg hexchange, hcs]
      simp only [Outcome.ok_bind, heq]
      rfl

namespace Coherent

/-- A walk through a fragment stays in it. -/
theorem fragment_of_reach_own {r i : NodeId} {m n : Node} (hm : s.node? r = some m)
    (hn : s.node? i = some n) (h : s.Reach s.own r i) : n.fragment = m.fragment := by
  induction h generalizing n with
  | refl => rw [Option.some.inj (hn.symm.trans hm)]
  | tail _ hstep ih =>
    obtain ⟨p, hp, hc⟩ := hstep
    obtain ⟨_, n', hn', hsame⟩ := mem_own.mp hc
    obtain rfl := Option.some.inj (hn.symm.trans hn')
    rw [hsame, ih hp]

/-- The root of a fragment reaches all its nodes within the fragment. -/
theorem reach_own (h : s.Coherent) {i : NodeId} {n : Node} {x : Fragment}
    (hn : s.node? i = some n) (hx : s.fragment? n.fragment = some x) : s.Reach s.own x.root i := by
  refine h.tree.upward h.ordered (P := fun i ↦ ∀ n, s.node? i = some n →
    s.fragment? n.fragment = some x → s.Reach s.own x.root i) ?_ hn n hn hx
  intro i ih n hn hx
  have hvalid := h.ordered.ne_invalid hx
  obtain ⟨y, hy, hi⟩ := h.connected hn hvalid
  obtain rfl := Option.some.inj (hx.symm.trans hy)
  rcases hi with rfl | ⟨p, m, hm, hc, hsame⟩
  · exact .refl
  · have hinner := h.inner_of_same hm hc hn hsame (hsame ▸ hvalid)
    have hstep : s.Step s.own p i := ⟨m, hm, mem_own.mpr ⟨hinner, n, hn, hsame.symm⟩⟩
    exact (ih p ⟨m, hm, hc⟩ m hm (hsame ▸ hx)).tail hstep

/-- The walk through a fragment. -/
theorem exists_walk_own (h : s.Coherent) {f : FragmentId} {x : Fragment}
    (hx : s.fragment? f = some x) :
    ∃ l, s.walkWithin s.own s.nodes.length x.root = .ok l ∧ s.executed f = .ok l ∧
      (l.map (·.id)).Nodup ∧ ∀ n, n ∈ l ↔ n ∈ s.nodes ∧ n.fragment = f := by
  obtain ⟨r, hr, rfl⟩ := h.root hx
  obtain ⟨l, hl⟩ := h.tree.descending.exists_walk h.ordered (fun n ↦ (s.own_sublist n).subset) hr
  refine ⟨l, hl, ?_, nodup_walkWithin h.tree s.own_sublist hl, fun n ↦ ?_⟩
  · rw [executed, fragment_eq_ok.mpr hx]
    exact executedWithin_eq_ok h.tree h.ordered hr (h.ordered.lt_length hr) hl
  · rw [mem_walkWithin hl]
    constructor
    · rintro ⟨hn, hreach⟩
      exact ⟨Numbered.mem_of_get? hn, fragment_of_reach_own hr hn hreach⟩
    · rintro ⟨hmem, hsame⟩
      have hn := h.ordered.nodes.get?_of_mem hmem
      exact ⟨hn, h.reach_own hn (hsame ▸ hx)⟩

end Coherent

end QueryPlanning.Session
