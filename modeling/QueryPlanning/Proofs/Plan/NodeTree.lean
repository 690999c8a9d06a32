import Mathlib.Logic.Relation
import QueryPlanning.Plan.Split
import QueryPlanning.Proofs.Plan.Positions

/-!
# Trees of nodes

The nodes of a plan form trees: children come before their parents and no node is a child twice.
Walks over these trees follow some of the children of each node. A fragment's segment follows all
but those of exchanges, and the joins that are extracted from a fragment are found by following, of
joins and subplans, the first child only. What a walk lists is what can be reached in its steps.

The build side of a join is looked at when it is a fragment of its own. What a subplan evaluates for
each row is looked at by no walk: the joins in it, down to the exchanges, are skipped.
-/

namespace QueryPlanning

namespace Node

/-- The children that the fragment of a node executes. -/
def inner (n : Node) : List NodeId := if n.isExchange then [] else n.children

/-- The children below which the fragment of a node looks for joins. -/
def probed (n : Node) : List NodeId :=
  match n.kind with
  | .join _ | .subplan => n.children.take 1
  | .exchange _ => []
  | _ => n.children

/-- The children that the fragment of a node executes and below which nobody looks for joins. -/
def skipped (n : Node) : List NodeId :=
  match n.kind with
  | .join _ => n.children.drop 2
  | .subplan => n.children.drop 1
  | _ => []

theorem inner_sublist (n : Node) : n.inner.Sublist n.children := by
  unfold inner
  split
  · exact List.nil_sublist _
  · exact List.Sublist.refl _

theorem inner_subset (n : Node) : n.inner ⊆ n.children := n.inner_sublist.subset

theorem probed_subset (n : Node) : n.probed ⊆ n.inner := by
  unfold probed inner isExchange input?
  cases n.kind <;> simp [List.take_subset]

theorem probed_sublist (n : Node) : n.probed.Sublist n.children := by
  unfold probed
  cases n.kind <;> simp [List.take_sublist]

theorem skipped_subset (n : Node) : n.skipped ⊆ n.inner := by
  unfold skipped inner isExchange input?
  cases n.kind <;> simp [List.drop_subset, (List.tail_sublist n.children).subset]

/-- A fragment looks for joins below a child that it executes, skips the child, or leaves it to the
plan that the build side of a join becomes. -/
theorem inner_cases {n : Node} {c : NodeId} (h : c ∈ n.inner) :
    c ∈ n.probed ∨ c ∈ n.skipped ∨ ∃ join, n.kind = .join join ∧ n.children[1]? = some c := by
  unfold inner isExchange input? at h
  unfold probed skipped
  cases hkind : n.kind with
  | join join =>
    rw [hkind] at h
    obtain ⟨k, hk⟩ := List.mem_iff_getElem?.mp h
    match k with
    | 0 => exact .inl (List.mem_of_getElem? (i := 0) (by rw [List.getElem?_take]; exact hk))
    | 1 => exact .inr (.inr ⟨join, rfl, hk⟩)
    | k + 2 =>
      refine .inr (.inl (List.mem_of_getElem? (i := k) ?_))
      rw [List.getElem?_drop, Nat.add_comm]
      exact hk
  | subplan =>
    rw [hkind] at h
    have hsplit : c ∈ n.children.take 1 ++ n.children.drop 1 := by
      rw [List.take_append_drop]
      exact h
    exact (List.mem_append.mp hsplit).imp_right .inl
  | exchange f =>
    rw [hkind] at h
    cases h
  | _ =>
    rw [hkind] at h
    exact .inl h

theorem not_mem_skipped_of_probed {n : Node} (hn : n.children.Nodup) {c : NodeId}
    (h : c ∈ n.probed) : c ∉ n.skipped := by
  have apart {k l : Nat} (hkl : k ≤ l) (hc : c ∈ n.children.take k) : c ∉ n.children.drop l := by
    intro hd
    rw [← List.take_append_drop k n.children, List.nodup_append] at hn
    have hsub : n.children.drop l ⊆ n.children.drop k := List.drop_subset_drop_left _ hkl
    exact hn.2.2 c hc c (hsub hd) rfl
  unfold probed at h
  unfold skipped
  cases hkind : n.kind <;> rw [hkind] at h
  case join => exact apart (Nat.le_succ 1) h
  case subplan => exact apart (Nat.le_refl 1) h
  all_goals exact List.not_mem_nil

theorem not_mem_skipped_of_build {n : Node} (hn : n.children.Nodup) {join : Join}
    (hkind : n.kind = .join join) {c : NodeId} (h : n.children[1]? = some c) : c ∉ n.skipped := by
  unfold skipped
  rw [hkind]
  intro hc
  obtain ⟨k, hk⟩ := List.mem_iff_getElem?.mp hc
  rw [List.getElem?_drop] at hk
  have heq := (List.getElem?_inj (List.getElem?_eq_some_iff.mp hk).1 hn).mp (hk.trans h.symm)
  omega

theorem probed_of_join {n : Node} {join : Join} (h : n.kind = .join join) :
    n.probed = n.children.take 1 := by
  rw [probed, h]

theorem inner_of_exchange {n : Node} {f : FragmentId} (h : n.kind = .exchange f) :
    n.inner = [] := by
  simp [inner, isExchange, input?, h]

theorem join?_eq_some {n : Node} {join : Join} : n.join? = some join ↔ n.kind = .join join := by
  unfold join?
  cases n.kind <;> simp

theorem input?_eq_some {n : Node} {f : FragmentId} : n.input? = some f ↔ n.kind = .exchange f := by
  unfold input?
  cases n.kind <;> simp

end Node

namespace Session

variable {s : Session} {next : Node → List NodeId}

/-- One step of a walk: from a node to one of the children that the walk follows. -/
def Step (s : Session) (next : Node → List NodeId) (p c : NodeId) : Prop :=
  ∃ n, s.node? p = some n ∧ c ∈ next n

/-- What a walk reaches from a node. -/
def Reach (s : Session) (next : Node → List NodeId) : NodeId → NodeId → Prop :=
  Relation.ReflTransGen (s.Step next)

abbrev Child (s : Session) : NodeId → NodeId → Prop := s.Step Node.children

/-- The nodes at and below a node. -/
abbrev Below (s : Session) : NodeId → NodeId → Prop := s.Reach Node.children

/-- Children are there, and they come before their parents. -/
structure Descending (s : Session) : Prop where
  lt {p c : NodeId} : s.Child p c → c.val < p.val
  child {p c : NodeId} : s.Child p c → ∃ n, s.node? c = some n

/-- Children come before their parents, and no node is a child twice. -/
structure Treelike (s : Session) : Prop where
  lt {p c : NodeId} : s.Child p c → c.val < p.val
  child {p c : NodeId} : s.Child p c → ∃ n, s.node? c = some n
  nodup {p : NodeId} {n : Node} : s.node? p = some n → n.children.Nodup
  unique {p q c : NodeId} : s.Child p c → s.Child q c → p = q

theorem Step.mono {next' : Node → List NodeId} (h : ∀ n, next n ⊆ next' n) {p c : NodeId} :
    s.Step next p c → s.Step next' p c := by
  rintro ⟨n, hn, hc⟩
  exact ⟨n, hn, h n hc⟩

theorem Reach.mono {next' : Node → List NodeId} (h : ∀ n, next n ⊆ next' n) {i j : NodeId}
    (hij : s.Reach next i j) : s.Reach next' i j :=
  Relation.ReflTransGen.mono (fun _ _ ↦ Step.mono h) i j hij

theorem exists_of_map_eq {α β : Type} {g : α → β} {o o' : Option α} (h : o'.map g = o.map g)
    {a : α} (ha : o = some a) : ∃ a', o' = some a' ∧ g a' = g a := by
  rw [ha, Option.map_some, Option.map_eq_some_iff] at h
  exact h

theorem map_eq_of_map_eq {α β γ : Type} {g : α → β} {k : α → γ}
    (hk : ∀ a a', g a' = g a → k a' = k a) {o o' : Option α} (h : o'.map g = o.map g) :
    o'.map k = o.map k := by
  cases o with
  | none =>
    rw [Option.map_none, Option.map_eq_none_iff] at h
    rw [h, Option.map_none]
  | some a =>
    obtain ⟨a', rfl, heq⟩ := exists_of_map_eq h rfl
    rw [Option.map_some, Option.map_some, hk a a' heq]

/-- The steps of a walk depend only on what it follows from each node. -/
theorem step_congr {s' : Session} (h : ∀ i, (s'.node? i).map next = (s.node? i).map next) :
    s'.Step next = s.Step next := by
  have mono {s s' : Session} (h : ∀ i, (s'.node? i).map next = (s.node? i).map next)
      {p c : NodeId} : s.Step next p c → s'.Step next p c := by
    rintro ⟨n, hn, hc⟩
    obtain ⟨n', hn', heq⟩ := exists_of_map_eq (h p) hn
    exact ⟨n', hn', heq ▸ hc⟩
  funext p c
  exact propext ⟨mono fun i ↦ (h i).symm, mono h⟩

namespace Treelike

theorem congr {s' : Session} (ht : s.Treelike)
    (h : ∀ i, (s'.node? i).map Node.children = (s.node? i).map Node.children) : s'.Treelike := by
  have hchild : s'.Child = s.Child := step_congr h
  have child {p c : NodeId} (hpc : s'.Child p c) : s.Child p c := hchild ▸ hpc
  constructor
  case lt => exact fun hpc ↦ ht.lt (child hpc)
  case child =>
    intro p c hpc
    obtain ⟨n, hn⟩ := ht.child (child hpc)
    obtain ⟨n', hn', _⟩ := exists_of_map_eq (h c) hn
    exact ⟨n', hn'⟩
  case nodup =>
    intro p n' hn'
    obtain ⟨n, hn, heq⟩ := exists_of_map_eq (h p).symm hn'
    exact heq ▸ ht.nodup hn
  case unique => exact fun hpc hqc ↦ ht.unique (child hpc) (child hqc)

theorem le_of_below (h : s.Treelike) {a n : NodeId} (han : s.Below a n) : n.val ≤ a.val := by
  induction han with
  | refl => exact Int.le_refl _
  | tail _ hstep ih => exact Int.le_trans (Int.le_of_lt (h.lt hstep)) ih

theorem antisymm (h : s.Treelike) {a b : NodeId} (hab : s.Below a b) (hba : s.Below b a) :
    a = b := by
  rcases Relation.ReflTransGen.cases_head hab with heq | ⟨c, hac, hcb⟩
  · exact heq
  · have h₁ := h.lt hac
    have h₂ := h.le_of_below (hcb.trans hba)
    omega

theorem not_below_child (h : s.Treelike) {p c : NodeId} (hpc : s.Child p c) : ¬s.Below c p := by
  intro hcp
  have h₁ := h.lt hpc
  have h₂ := h.le_of_below hcp
  omega

/-- Of two nodes above a third one, one is above the other. -/
theorem total (h : s.Treelike) {a b n : NodeId} (ha : s.Below a n) (hb : s.Below b n) :
    s.Below a b ∨ s.Below b a := by
  have hunique : Relator.RightUnique (Function.swap s.Child) := fun _ _ _ ↦ h.unique
  rcases Relation.ReflTransGen.total_of_right_unique hunique
    (Relation.reflTransGen_swap.mpr ha) (Relation.reflTransGen_swap.mpr hb) with hab | hba
  · exact .inr (Relation.reflTransGen_swap.mp hab)
  · exact .inl (Relation.reflTransGen_swap.mp hba)

/-- A node that is properly below another one has its parent there. -/
theorem below_parent (h : s.Treelike) {a b p : NodeId} (hab : s.Below a b) (hne : a ≠ b)
    (hp : s.Child p b) : s.Below a p := by
  rcases Relation.ReflTransGen.cases_tail hab with heq | ⟨q, haq, hq⟩
  · exact absurd heq.symm hne
  · rwa [h.unique hp hq]

/-- The subtrees of two children of a node have nothing in common. -/
theorem disjoint (h : s.Treelike) {p a b n : NodeId} (ha : s.Child p a) (hb : s.Child p b)
    (hne : a ≠ b) (han : s.Below a n) : ¬s.Below b n := by
  intro hbn
  rcases h.total han hbn with hab | hba
  · exact h.not_below_child ha (h.below_parent hab hne hb)
  · exact h.not_below_child hb (h.below_parent hba hne.symm ha)

/-- A path of a walk passes through every node between its ends. -/
theorem reach_of_below (h : s.Treelike) (hnext : ∀ n, next n ⊆ n.children) {r a n : NodeId}
    (hrn : s.Reach next r n) (hra : s.Below r a) (han : s.Below a n) : s.Reach next a n := by
  induction hrn with
  | refl =>
    rw [h.antisymm han hra]
    exact .refl
  | @tail m n hrm hmn ih =>
    by_cases hne : a = n
    · rw [hne]
      exact .refl
    · exact (ih (h.below_parent han hne (hmn.mono hnext))).tail hmn

/-- What passes from parents to their children holds of all nodes. -/
theorem upward (h : s.Treelike) (ho : s.Ordered) {P : NodeId → Prop}
    (step : ∀ i, (∀ p, s.Child p i → P p) → P i) {i : NodeId} {n : Node}
    (hn : s.node? i = some n) : P i := by
  induction hk : (s.nodes.length - i.val).toNat using Nat.strongRecOn generalizing i n with
  | ind k ih =>
    apply step i
    intro p hp
    have hlt := h.lt hp
    obtain ⟨m, hm, _⟩ := hp
    have hlen := ho.lt_length hm
    exact ih _ (by omega) hm rfl

end Treelike

/-- A recursion that succeeds at a node if it does at the children ends well with enough depth:
numbers decrease on the way down. -/
theorem Descending.exists_ok (h : s.Descending) (ho : s.Ordered) {α : Type}
    {f : Nat → NodeId → Except Error α}
    (step : ∀ d i n, s.node? i = some n → (∀ c ∈ n.children, ∃ a, f d c = .ok a) →
      ∃ a, f (d + 1) i = .ok a)
    {d : Nat} {i : NodeId} {n : Node} (hn : s.node? i = some n) (hd : i.val < d) :
    ∃ a, f d i = .ok a := by
  induction d generalizing i n with
  | zero =>
    have hi := ho.val_nonneg hn
    omega
  | succ d ih =>
    refine step d i n hn fun c hc ↦ ?_
    have hchild : s.Child i c := ⟨n, hn, hc⟩
    obtain ⟨m, hm⟩ := h.child hchild
    have hlt := h.lt hchild
    exact ih hm (by omega)

theorem Treelike.descending (h : s.Treelike) : s.Descending := ⟨h.lt, h.child⟩

/-- The nodes that a fragment executes and where nobody looks for joins. -/
def Skipped (s : Session) (i : NodeId) : Prop :=
  ∃ p c, s.Step Node.skipped p c ∧ s.Reach Node.inner c i

theorem Skipped.tail {p c : NodeId} (h : s.Skipped p) (hc : s.Step Node.inner p c) :
    s.Skipped c := by
  obtain ⟨q, b, hb, hp⟩ := h
  exact ⟨q, b, hb, hp.tail hc⟩

theorem Skipped.of_step {p c : NodeId} (h : s.Step Node.skipped p c) : s.Skipped c :=
  ⟨p, c, h, .refl⟩

theorem not_skipped_of_top {c : NodeId} (hc : ∀ p, ¬s.Child p c) : ¬s.Skipped c := by
  rintro ⟨q, b, hb, hbc⟩
  rcases Relation.ReflTransGen.cases_tail hbc with rfl | ⟨m, _, hm⟩
  · exact hc q (hb.mono fun n ↦ List.Subset.trans n.skipped_subset n.inner_subset)
  · exact hc m (hm.mono Node.inner_subset)

namespace Treelike

variable {p c : NodeId} {n : Node}

/-- A child is skipped by its parent or together with its parent. -/
theorem skipped_cases (h : s.Treelike) (hn : s.node? p = some n) (hc : c ∈ n.children)
    (hs : s.Skipped c) : c ∈ n.skipped ∨ (c ∈ n.inner ∧ s.Skipped p) := by
  obtain ⟨q, b, hb, hbc⟩ := hs
  rcases Relation.ReflTransGen.cases_tail hbc with rfl | ⟨m, hbm, hm⟩
  · have hchild : s.Child q c := hb.mono fun n ↦ List.Subset.trans n.skipped_subset n.inner_subset
    obtain rfl := h.unique ⟨n, hn, hc⟩ hchild
    obtain ⟨n', hn', hb⟩ := hb
    obtain rfl := Option.some.inj (hn.symm.trans hn')
    exact .inl hb
  · obtain rfl := h.unique ⟨n, hn, hc⟩ (hm.mono Node.inner_subset)
    obtain ⟨n', hn', hc⟩ := hm
    obtain rfl := Option.some.inj (hn.symm.trans hn')
    exact .inr ⟨hc, q, b, hb, hbm⟩

theorem not_skipped_of_exchange (h : s.Treelike) (hn : s.node? p = some n) {f : FragmentId}
    (hkind : n.kind = .exchange f) (hc : c ∈ n.children) : ¬s.Skipped c := by
  intro hs
  have hinner : c ∈ n.inner := by
    rcases h.skipped_cases hn hc hs with hskip | ⟨hinner, _⟩
    · exact n.skipped_subset hskip
    · exact hinner
  rw [Node.inner_of_exchange hkind] at hinner
  cases hinner

theorem not_skipped_of_build (h : s.Treelike) (hn : s.node? p = some n) {join : Join}
    (hkind : n.kind = .join join) (hc : n.children[1]? = some c) (hp : ¬s.Skipped p) :
    ¬s.Skipped c := by
  intro hs
  rcases h.skipped_cases hn (List.mem_of_getElem? hc) hs with hskip | ⟨_, hp'⟩
  · exact Node.not_mem_skipped_of_build (h.nodup hn) hkind hc hskip
  · exact hp hp'

/-- A fragment that is not skipped itself finds no node that is. -/
theorem not_skipped_of_reach (h : s.Treelike) {r j : NodeId} (hr : ¬s.Skipped r)
    (hrj : s.Reach Node.probed r j) : ¬s.Skipped j := by
  induction hrj with
  | refl => exact hr
  | tail _ hstep ih =>
    obtain ⟨n, hn, hc⟩ := hstep
    intro hs
    rcases h.skipped_cases hn ((Node.probed_sublist n).subset hc) hs with hskip | ⟨_, hp⟩
    · exact Node.not_mem_skipped_of_probed (h.nodup hn) hc hskip
    · exact ih hp

end Treelike

/-! ## Walks -/

/-- The nodes of a walk, each before those below it. -/
def walkWithin (s : Session) (next : Node → List NodeId) : Nat → NodeId →
    Except Error (List Node)
  | 0, _ => .error .brokenLink
  | depth + 1, i => do
    let n ← s.node i
    return n :: (← (next n).mapM (s.walkWithin next depth)).flatten

theorem walkWithin_succ_eq_ok {d : Nat} {i : NodeId} {l : List Node} :
    s.walkWithin next (d + 1) i = .ok l ↔
      ∃ n ls, s.node? i = some n ∧ (next n).mapM (s.walkWithin next d) = .ok ls ∧
        l = n :: ls.flatten := by
  simp only [walkWithin, Outcome.bind_eq_ok, node_eq_ok, Outcome.pure_eq_ok]
  constructor
  · rintro ⟨n, hn, ls, hls, rfl⟩
    exact ⟨n, ls, hn, hls, rfl⟩
  · rintro ⟨n, ls, hn, hls, rfl⟩
    exact ⟨n, hn, ls, hls, rfl⟩

/-- A walk lists exactly the nodes that it reaches. -/
theorem mem_walkWithin {d : Nat} {i : NodeId} {l : List Node}
    (h : s.walkWithin next d i = .ok l) {n : Node} :
    n ∈ l ↔ s.node? n.id = some n ∧ s.Reach next i n.id := by
  induction d generalizing i l with
  | zero => cases h
  | succ d ih =>
    obtain ⟨m, ls, hm, hls, rfl⟩ := walkWithin_succ_eq_ok.mp h
    have hid := id_of_node? hm
    rw [List.mem_cons, Outcome.mem_flatten_of_mapM hls]
    constructor
    · rintro (rfl | ⟨c, hc, l, hl, hn⟩)
      · rw [hid]
        exact ⟨hm, .refl⟩
      · obtain ⟨hn, hcn⟩ := (ih hl).mp hn
        exact ⟨hn, .head ⟨m, hm, hc⟩ hcn⟩
    · rintro ⟨hn, hin⟩
      rcases Relation.ReflTransGen.cases_head hin with heq | ⟨c, ⟨m', hm', hc⟩, hcn⟩
      · rw [← heq, hm] at hn
        exact .inl (Option.some.inj hn).symm
      · obtain rfl := Option.some.inj (hm.symm.trans hm')
        obtain ⟨l, hl⟩ := Outcome.exists_of_mem_mapM hls hc
        exact .inr ⟨c, hc, l, hl, (ih hl).mpr ⟨hn, hcn⟩⟩

/-- A walk over a tree comes to every node once. -/
theorem nodup_walkWithin (ht : s.Treelike) (hnext : ∀ n, (next n).Sublist n.children) {d : Nat}
    {i : NodeId} {l : List Node} (h : s.walkWithin next d i = .ok l) : (l.map (·.id)).Nodup := by
  induction d generalizing i l with
  | zero => cases h
  | succ d ih =>
    obtain ⟨m, ls, hm, hls, rfl⟩ := walkWithin_succ_eq_ok.mp h
    have child {c : NodeId} (hc : c ∈ next m) : s.Child i c := ⟨m, hm, (hnext m).subset hc⟩
    have below {c : NodeId} {l : List Node} (hl : s.walkWithin next d c = .ok l) {n : Node}
        (hn : n ∈ l) : s.Below c n.id :=
      ((mem_walkWithin hl).mp hn).2.mono fun n ↦ (hnext n).subset
    have hids : (next m).mapM (fun c ↦ (s.walkWithin next d c).map (List.map (·.id))) =
        .ok (ls.map (List.map (·.id))) := by
      refine Outcome.mapM_eq_ok.mpr (List.forall₂_map_right_iff.mpr ?_)
      apply (Outcome.mapM_eq_ok.mp hls).imp
      intro c l hl
      rw [hl]
      rfl
    have walked {c : NodeId} {is : List NodeId}
        (his : (s.walkWithin next d c).map (List.map (·.id)) = .ok is) :
        ∃ l, s.walkWithin next d c = .ok l ∧ l.map (·.id) = is := by
      cases hl : s.walkWithin next d c with
      | error e =>
        rw [hl] at his
        cases his
      | ok l =>
        rw [hl] at his
        cases his
        exact ⟨l, rfl, rfl⟩
    rw [List.map_cons, List.map_flatten, id_of_node? hm, List.nodup_cons]
    constructor
    · intro hi
      obtain ⟨c, hc, is, his, hi⟩ := (Outcome.mem_flatten_of_mapM hids).mp hi
      obtain ⟨l, hl, rfl⟩ := walked his
      obtain ⟨n, hn, rfl⟩ := List.mem_map.mp hi
      exact ht.not_below_child (child hc) (below hl hn)
    · refine Outcome.nodup_flatten_of_mapM hids ((hnext m).nodup (ht.nodup hm)) ?_ ?_
      · intro c _ is his
        obtain ⟨l, hl, rfl⟩ := walked his
        exact ih hl
      · intro c hc c' hc' hne is is' his his' j hj hj'
        obtain ⟨l, hl, rfl⟩ := walked his
        obtain ⟨l', hl', rfl⟩ := walked his'
        obtain ⟨n, hn, rfl⟩ := List.mem_map.mp hj
        obtain ⟨n', hn', hid⟩ := List.mem_map.mp hj'
        have hbelow := below hl' hn'
        rw [hid] at hbelow
        exact ht.disjoint (child hc) (child hc') hne (below hl hn) hbelow

theorem Descending.exists_walk (h : s.Descending) (ho : s.Ordered)
    (hnext : ∀ n, next n ⊆ n.children) {i : NodeId} {n : Node} (hn : s.node? i = some n) :
    ∃ l, s.walkWithin next s.nodes.length i = .ok l := by
  refine h.exists_ok ho (fun d j m hm hchildren ↦ ?_) hn (ho.lt_length hn)
  obtain ⟨ls, hls⟩ := Outcome.exists_mapM fun c hc ↦ hchildren c (hnext m hc)
  exact ⟨_, walkWithin_succ_eq_ok.mpr ⟨m, ls, hm, hls, rfl⟩⟩

theorem segmentWithin_eq (d : Nat) (i : NodeId) :
    s.segmentWithin d i = s.walkWithin Node.inner d i := by
  induction d generalizing i with
  | zero => rfl
  | succ d ih =>
    have ih' : s.segmentWithin d = s.walkWithin Node.inner d := funext ih
    rw [segmentWithin, walkWithin, ih']
    congr 1
    funext n
    cases hn : n.isExchange <;> simp [Node.inner, hn]

theorem mem_segment {r : NodeId} {l : List Node} (h : s.segment r = .ok l) {n : Node} :
    n ∈ l ↔ s.node? n.id = some n ∧ s.Reach Node.inner r n.id := by
  rw [segment, segmentWithin_eq] at h
  exact mem_walkWithin h

theorem Descending.exists_segment (h : s.Descending) (ho : s.Ordered) {r : NodeId} {n : Node}
    (hn : s.node? r = some n) : ∃ l, s.segment r = .ok l := by
  rw [segment, segmentWithin_eq]
  exact h.exists_walk ho Node.inner_subset hn

theorem exists_node_of_segment {r : NodeId} {l : List Node} (h : s.segment r = .ok l) :
    ∃ n, s.node? r = some n := by
  rw [segment, segmentWithin_eq] at h
  cases hd : s.nodes.length with
  | zero =>
    rw [hd] at h
    cases h
  | succ d =>
    rw [hd] at h
    obtain ⟨n, _, hn, _⟩ := walkWithin_succ_eq_ok.mp h
    exact ⟨n, hn⟩

theorem mem_ids_segment {r : NodeId} {l : List Node} (h : s.segment r = .ok l) {i : NodeId} :
    i ∈ l.map (·.id) ↔ (∃ n, s.node? i = some n) ∧ s.Reach Node.inner r i := by
  rw [List.mem_map]
  constructor
  · rintro ⟨n, hn, rfl⟩
    obtain ⟨hn, hr⟩ := (mem_segment h).mp hn
    exact ⟨⟨n, hn⟩, hr⟩
  · rintro ⟨⟨n, hn⟩, hr⟩
    obtain rfl := id_of_node? hn
    exact ⟨n, (mem_segment h).mpr ⟨hn, hr⟩, rfl⟩

/-- The exchanges of a segment. -/
theorem mem_exchanges {r : NodeId} {es : List NodeId} (h : s.exchanges r = .ok es) {e : NodeId} :
    e ∈ es ↔ s.Reach Node.inner r e ∧ ∃ n f, s.node? e = some n ∧ n.kind = .exchange f := by
  simp only [exchanges, Outcome.bind_eq_ok, Outcome.pure_eq_ok] at h
  obtain ⟨l, hl, rfl⟩ := h
  simp only [List.mem_map, List.mem_filter]
  constructor
  · rintro ⟨n, ⟨hn, he⟩, rfl⟩
    obtain ⟨hn, hr⟩ := (mem_segment hl).mp hn
    obtain ⟨f, hf⟩ := Option.isSome_iff_exists.mp he
    exact ⟨hr, n, f, hn, Node.input?_eq_some.mp hf⟩
  · rintro ⟨hr, n, f, hn, hf⟩
    obtain rfl := id_of_node? hn
    refine ⟨n, ⟨(mem_segment hl).mpr ⟨hn, hr⟩, ?_⟩, rfl⟩
    rw [Node.isExchange, Node.input?_eq_some.mpr hf]
    rfl

theorem Treelike.nodup_exchanges (h : s.Treelike) {r : NodeId} {es : List NodeId}
    (hes : s.exchanges r = .ok es) : es.Nodup := by
  simp only [exchanges, Outcome.bind_eq_ok, Outcome.pure_eq_ok] at hes
  obtain ⟨l, hl, rfl⟩ := hes
  rw [segment, segmentWithin_eq] at hl
  exact (nodup_walkWithin h Node.inner_sublist hl).sublist (List.filter_sublist.map _)

theorem joinsWithin_succ (d : Nat) (i : NodeId) :
    s.joinsWithin (d + 1) i = (do
      let n ← s.node i
      let below ← n.probed.mapM (s.joinsWithin d)
      return (if n.join?.isSome then [i] else []) ++ below.flatten) := by
  rw [joinsWithin]
  congr 1
  funext n
  unfold Node.probed Node.join?
  cases n.kind <;> simp

/-- The joins of a fragment are those that a walk over the probed children comes to. -/
theorem walkWithin_of_joinsWithin {d : Nat} {i : NodeId} {js : List NodeId}
    (h : s.joinsWithin d i = .ok js) :
    ∃ l, s.walkWithin Node.probed d i = .ok l ∧
      js = (l.filter (·.join?.isSome)).map (·.id) := by
  induction d generalizing i js with
  | zero => cases h
  | succ d ih =>
    rw [joinsWithin_succ] at h
    obtain ⟨n, hn, h⟩ := Outcome.bind_eq_ok.mp h
    obtain ⟨below, hbelow, h⟩ := Outcome.bind_eq_ok.mp h
    obtain rfl := Outcome.pure_eq_ok.mp h
    rw [node_eq_ok] at hn
    have walks {cs : List NodeId} {jss : List (List NodeId)}
        (hcs : List.Forall₂ (fun c js ↦ s.joinsWithin d c = .ok js) cs jss) :
        ∃ ls, List.Forall₂ (fun c l ↦ s.walkWithin Node.probed d c = .ok l) cs ls ∧
          jss.flatten = (ls.flatten.filter (·.join?.isSome)).map (·.id) := by
      induction hcs with
      | nil => exact ⟨[], .nil, rfl⟩
      | cons hc _ ihcs =>
        obtain ⟨l, hl, rfl⟩ := ih hc
        obtain ⟨ls, hls, hflat⟩ := ihcs
        exact ⟨l :: ls, .cons hl hls, by simp [hflat]⟩
    obtain ⟨ls, hls, hflat⟩ := walks (Outcome.mapM_eq_ok.mp hbelow)
    refine ⟨n :: ls.flatten, ?_, ?_⟩
    · exact walkWithin_succ_eq_ok.mpr ⟨n, ls, hn, Outcome.mapM_eq_ok.mpr hls, rfl⟩
    · rw [hflat, List.filter_cons]
      have hid := id_of_node? hn
      split <;> simp [hid]

theorem mem_joins {r : NodeId} {js : List NodeId} (h : s.joins r = .ok js) {j : NodeId} :
    j ∈ js ↔ s.Reach Node.probed r j ∧ ∃ n join, s.node? j = some n ∧ n.kind = .join join := by
  obtain ⟨l, hl, rfl⟩ := walkWithin_of_joinsWithin h
  simp only [List.mem_map, List.mem_filter]
  constructor
  · rintro ⟨n, ⟨hn, hj⟩, rfl⟩
    obtain ⟨hn, hr⟩ := (mem_walkWithin hl).mp hn
    obtain ⟨join, hjoin⟩ := Option.isSome_iff_exists.mp hj
    exact ⟨hr, n, join, hn, Node.join?_eq_some.mp hjoin⟩
  · rintro ⟨hr, n, join, hn, hjoin⟩
    obtain rfl := id_of_node? hn
    refine ⟨n, ⟨(mem_walkWithin hl).mpr ⟨hn, hr⟩, ?_⟩, rfl⟩
    rw [Node.join?_eq_some.mpr hjoin]
    rfl

theorem Treelike.exists_joins (h : s.Treelike) (ho : s.Ordered) {r : NodeId} {n : Node}
    (hn : s.node? r = some n) : ∃ js, s.joins r = .ok js := by
  refine h.descending.exists_ok ho (fun d i m hm hchildren ↦ ?_) hn (ho.lt_length hn)
  obtain ⟨below, hbelow⟩ :=
    Outcome.exists_mapM fun c hc ↦ hchildren c ((Node.probed_sublist m).subset hc)
  simp only [joinsWithin_succ, Outcome.bind_eq_ok, node_eq_ok, Outcome.pure_eq_ok]
  exact ⟨_, m, hm, below, hbelow, rfl⟩

theorem nodup_joins (ht : s.Treelike) {r : NodeId} {js : List NodeId} (h : s.joins r = .ok js) :
    js.Nodup := by
  obtain ⟨l, hl, rfl⟩ := walkWithin_of_joinsWithin h
  exact (nodup_walkWithin ht Node.probed_sublist hl).sublist (List.filter_sublist.map _)

/-- No join that the walk comes to is on the build side of another one. -/
theorem Treelike.not_below_build (ht : s.Treelike) {r j j' b : NodeId} {n : Node} {join : Join}
    (hj : s.Reach Node.probed r j) (hj' : s.Reach Node.probed r j')
    (hn : s.node? j' = some n) (hjoin : n.kind = .join join) (hb : n.children[1]? = some b) :
    ¬s.Below b j := by
  intro hbj
  have subset (n : Node) : n.probed ⊆ n.children := (Node.probed_sublist n).subset
  have hchild : s.Child j' b := ⟨n, hn, List.mem_of_getElem? hb⟩
  have hpath := ht.reach_of_below subset hj (hj'.mono subset) (.head hchild hbj)
  rcases Relation.ReflTransGen.cases_head hpath with rfl | ⟨c, ⟨m, hm, hc⟩, hcj⟩
  · exact ht.not_below_child hchild hbj
  · obtain rfl := Option.some.inj (hn.symm.trans hm)
    rw [Node.probed_of_join hjoin] at hc
    have hne : c ≠ b := by
      rintro rfl
      obtain ⟨k, hk⟩ := List.mem_iff_getElem?.mp hc
      rw [List.getElem?_take] at hk
      split at hk
      · have := (List.getElem?_inj (List.getElem?_eq_some_iff.mp hk).1 (ht.nodup hn)).mp
          (hk.trans hb.symm)
        omega
      · cases hk
    have hcchild : s.Child j' c := ⟨n, hn, List.mem_of_mem_take hc⟩
    exact ht.disjoint hcchild hchild hne (Reach.mono subset hcj) hbj

end Session

end QueryPlanning
