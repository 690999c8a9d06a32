import QueryPlanning.Proofs.Plan.NodeTree

/-!
# Nodes by path

A node of a tree is found by the way down to it: the positions of the children that lead there. In
sessions whose nodes form trees there is one way to every node below the start.
-/

namespace QueryPlanning.Session

variable {s : Session} {i j : NodeId} {m n : Node} {path : List Nat}

/-- The node at the end of a path of positions among the children. -/
def at? (s : Session) (i : NodeId) : List Nat → Option Node
  | [] => s.node? i
  | k :: path => (s.node? i).bind fun n ↦ (n.children[k]?).bind (s.at? · path)

@[simp]
theorem at?_nil (s : Session) (i : NodeId) : s.at? i [] = s.node? i := rfl

theorem at?_cons (hn : s.node? i = some n) (k : Nat) (path : List Nat) :
    s.at? i (k :: path) = (n.children[k]?).bind (s.at? · path) := by
  rw [at?, hn]
  rfl

theorem at?_cons_eq_some {k : Nat} :
    s.at? i (k :: path) = some m ↔
      ∃ n c, s.node? i = some n ∧ n.children[k]? = some c ∧ s.at? c path = some m := by
  simp only [at?, Option.bind_eq_some_iff]
  constructor
  · rintro ⟨n, hn, c, hc, hm⟩
    exact ⟨n, c, hn, hc, hm⟩
  · rintro ⟨n, c, hn, hc, hm⟩
    exact ⟨n, hn, c, hc, hm⟩

theorem node?_of_at? (h : s.at? i path = some m) : s.node? m.id = some m := by
  induction path generalizing i with
  | nil =>
    rw [id_of_node? h]
    exact h
  | cons k path ih =>
    obtain ⟨n, c, _, _, hm⟩ := at?_cons_eq_some.mp h
    exact ih hm

theorem below_of_at? (h : s.at? i path = some m) : s.Below i m.id := by
  induction path generalizing i with
  | nil =>
    rw [id_of_node? h]
    exact .refl
  | cons k path ih =>
    obtain ⟨n, c, hn, hc, hm⟩ := at?_cons_eq_some.mp h
    exact .head ⟨n, hn, List.mem_of_getElem? hc⟩ (ih hm)

/-- There is a path to every node below the start. -/
theorem exists_at? (h : s.Below i j) (hn : s.node? j = some n) :
    ∃ path, s.at? i path = some n := by
  induction h using Relation.ReflTransGen.head_induction_on with
  | refl => exact ⟨[], hn⟩
  | head hstep _ ih =>
    obtain ⟨m, hm, hc⟩ := hstep
    obtain ⟨k, hk⟩ := List.mem_iff_getElem?.mp hc
    obtain ⟨path, hpath⟩ := ih
    exact ⟨k :: path, at?_cons_eq_some.mpr ⟨m, _, hm, hk, hpath⟩⟩

/-- A path that goes down does not come back to its start. -/
theorem Treelike.not_at?_cons (h : s.Treelike) {k : Nat} :
    s.at? n.id (k :: path) ≠ some n := by
  intro hpath
  obtain ⟨m, c, hm, hc, hn⟩ := at?_cons_eq_some.mp hpath
  exact h.not_below_child ⟨m, hm, List.mem_of_getElem? hc⟩ (below_of_at? hn)

/-- No two paths lead to one node. -/
theorem Treelike.at?_injective (h : s.Treelike) {path' : List Nat} (hpath : s.at? i path = some n)
    (hpath' : s.at? i path' = some n) : path = path' := by
  induction path generalizing i path' with
  | nil =>
    obtain rfl := id_of_node? hpath
    cases path' with
    | nil => rfl
    | cons l path' => exact absurd hpath' h.not_at?_cons
  | cons k path ih =>
    cases path' with
    | nil =>
      obtain rfl := id_of_node? hpath'
      exact absurd hpath h.not_at?_cons
    | cons l path' =>
      obtain ⟨m, c, hm, hc, hn⟩ := at?_cons_eq_some.mp hpath
      obtain ⟨m', d, hm', hd, hn'⟩ := at?_cons_eq_some.mp hpath'
      obtain rfl := Option.some.inj (hm.symm.trans hm')
      have hcd : c = d := by
        by_contra hne
        exact h.disjoint ⟨m, hm, List.mem_of_getElem? hc⟩ ⟨m, hm, List.mem_of_getElem? hd⟩ hne
          (below_of_at? hn) (below_of_at? hn')
      subst hcd
      have hlt := (List.getElem?_eq_some_iff.mp hc).1
      rw [(List.getElem?_inj hlt (h.nodup hm)).mp (hc.trans hd.symm), ih hn hn']

end QueryPlanning.Session
