import Mathlib.Data.List.Perm.Subperm
import Mathlib.Logic.Relation
import QueryPlanning.Proofs.Plan.Positions

/-!
# Trees of fragments

Every fragment names its parent and lists its children. Where the two agree and no fragment lies
below itself, the loop that puts children in the place of their parent lists a tree in preorder:
it is the recursive listing, it ends within the bound of the loop, and it holds each fragment of
the tree once.
-/

namespace QueryPlanning.Session

def parent? (s : Session) (c : FragmentId) : Option FragmentId :=
  (s.fragment? c).bind (·.parent)

/-- Parents and lists of children agree. -/
structure Linked (s : Session) : Prop where
  mem_children {f c : FragmentId} {x : Fragment} :
    s.fragment? f = some x → (c ∈ x.children ↔ s.parent? c = some f)
  nodup {f : FragmentId} {x : Fragment} : s.fragment? f = some x → x.children.Nodup
  parent {f c : FragmentId} : s.parent? c = some f → ∃ x, s.fragment? f = some x

/-- The fragments at and below a fragment. -/
def InTree (s : Session) : FragmentId → FragmentId → Prop :=
  Relation.ReflTransGen fun f c ↦ s.parent? c = some f

/-- No fragment lies below itself. -/
def Acyclic (s : Session) : Prop :=
  ∀ f, ¬Relation.TransGen (fun f c ↦ s.parent? c = some f) f f

variable {s : Session}

theorem fragment?_of_parent? {c f : FragmentId} (h : s.parent? c = some f) :
    ∃ x, s.fragment? c = some x ∧ x.parent = some f := by
  exact Option.bind_eq_some_iff.mp h

theorem parent?_eq {c : FragmentId} {x : Fragment} (h : s.fragment? c = some x) :
    s.parent? c = x.parent := by
  rw [parent?, h]
  rfl

/-- Of two fragments above a third one, one is above the other. -/
theorem InTree.total {f g c : FragmentId} (hf : s.InTree f c) (hg : s.InTree g c) :
    s.InTree f g ∨ s.InTree g f := by
  have hunique : Relator.RightUnique (Function.swap fun f c ↦ s.parent? c = some f) := by
    intro c f g hf hg
    exact Option.some.inj (hf.symm.trans hg)
  rcases Relation.ReflTransGen.total_of_right_unique hunique
    (Relation.reflTransGen_swap.mpr hf) (Relation.reflTransGen_swap.mpr hg) with h | h
  · exact .inr (Relation.reflTransGen_swap.mp h)
  · exact .inl (Relation.reflTransGen_swap.mp h)

theorem Acyclic.ne_of_parent? (h : s.Acyclic) {f c : FragmentId} (hc : s.parent? c = some f) :
    c ≠ f := by
  rintro rfl
  exact h c (.single hc)

theorem Acyclic.not_inTree (h : s.Acyclic) {f c : FragmentId} (hc : s.parent? c = some f) :
    ¬s.InTree c f := fun hcf ↦ h c (.tail' hcf hc)

/-- The trees of two children of a fragment have nothing in common. -/
theorem Acyclic.disjoint (h : s.Acyclic) {f c c' g : FragmentId} (hc : s.parent? c = some f)
    (hc' : s.parent? c' = some f) (hne : c ≠ c') (hg : s.InTree c g) : ¬s.InTree c' g := by
  have below {a b : FragmentId} (ha : s.parent? a = some f) (hb : s.parent? b = some f)
      (hab : a ≠ b) : ¬s.InTree a b := by
    intro hin
    rcases Relation.ReflTransGen.cases_tail hin with heq | ⟨p, hap, hp⟩
    · exact hab heq.symm
    · obtain rfl := Option.some.inj (hp.symm.trans hb)
      exact h.not_inTree ha hap
  intro hg'
  rcases hg.total hg' with h₁ | h₁
  · exact below hc hc' hne h₁
  · exact below hc' hc hne.symm h₁

theorem preorderWithin_succ_eq_ok {d : Nat} {f : FragmentId} {l : List FragmentId} :
    s.preorderWithin (d + 1) f = .ok l ↔
      ∃ x ls, s.fragment? f = some x ∧ x.children.mapM (s.preorderWithin d) = .ok ls ∧
        l = f :: ls.flatten := by
  simp only [preorderWithin, Outcome.bind_eq_ok, fragment_eq_ok, Outcome.pure_eq_ok]
  constructor
  · rintro ⟨x, hx, ls, hls, rfl⟩
    exact ⟨x, ls, hx, hls, rfl⟩
  · rintro ⟨x, ls, hx, hls, rfl⟩
    exact ⟨x, hx, ls, hls, rfl⟩

theorem preorderWithin_succ {d : Nat} {f : FragmentId} {l : List FragmentId}
    (h : s.preorderWithin d f = .ok l) : s.preorderWithin (d + 1) f = .ok l := by
  induction d generalizing f l with
  | zero => cases h
  | succ d ih =>
    obtain ⟨x, ls, hx, hls, rfl⟩ := preorderWithin_succ_eq_ok.mp h
    refine preorderWithin_succ_eq_ok.mpr ⟨x, ls, hx, ?_, rfl⟩
    exact Outcome.mapM_eq_ok.mpr ((Outcome.mapM_eq_ok.mp hls).imp fun _ _ h ↦ ih h)

/-- A recursion that succeeds at a fragment if it does at the children ends well if it may go as
deep as there are fragments: without circles no path is longer. -/
theorem Acyclic.exists_ok (ha : s.Acyclic) (hl : s.Linked) {α : Type}
    {g : Nat → FragmentId → Except Error α}
    (step : ∀ d f x, s.fragment? f = some x → (∀ c ∈ x.children, ∃ a, g d c = .ok a) →
      ∃ a, g (d + 1) f = .ok a)
    {f : FragmentId} {x : Fragment} (hx : s.fragment? f = some x) :
    ∃ a, g s.fragments.length f = .ok a := by
  -- The path that leads to a fragment and the depth that is left are enough for all fragments.
  have along (d : Nat) : ∀ (path : List FragmentId) (f : FragmentId) (x : Fragment), path.Nodup →
      (∀ p ∈ path, ∃ y, s.fragment? p = some y) →
      (∀ p ∈ path, Relation.TransGen (fun f c ↦ s.parent? c = some f) p f) →
      s.fragment? f = some x → s.fragments.length ≤ d + path.length → ∃ a, g d f = .ok a := by
    induction d with
    | zero =>
      intro path f x hnodup hheld habove hx hd
      have hcons : (f :: path).Nodup := List.nodup_cons.mpr ⟨fun hf ↦ ha f (habove f hf), hnodup⟩
      have hsub : f :: path ⊆ s.fragments.map (·.id) := by
        intro p hp
        obtain ⟨y, hy⟩ : ∃ y, s.fragment? p = some y := by
          rcases List.mem_cons.mp hp with rfl | hp
          · exact ⟨x, hx⟩
          · exact hheld p hp
        exact List.mem_map.mpr ⟨y, Numbered.mem_of_get? hy, id_of_fragment? hy⟩
      have hlength := (List.subperm_of_subset hcons hsub).length_le
      rw [List.length_cons, List.length_map] at hlength
      omega
    | succ d ih =>
      intro path f x hnodup hheld habove hx hd
      refine step d f x hx fun c hc ↦ ?_
      have hparent := (hl.mem_children hx).mp hc
      obtain ⟨y, hy, _⟩ := fragment?_of_parent? hparent
      refine ih (f :: path) c y ?_ ?_ ?_ hy ?_
      · exact List.nodup_cons.mpr ⟨fun hf ↦ ha f (habove f hf), hnodup⟩
      · exact List.forall_mem_cons.mpr ⟨⟨x, hx⟩, hheld⟩
      · exact List.forall_mem_cons.mpr ⟨.single hparent, fun p hp ↦ (habove p hp).tail hparent⟩
      · rw [List.length_cons]
        omega
  exact along s.fragments.length [] f x List.nodup_nil (fun _ hp ↦ absurd hp List.not_mem_nil)
    (fun _ hp ↦ absurd hp List.not_mem_nil) hx (Nat.le_add_right _ _)

/-- Without circles every fragment can be listed. -/
theorem exists_preorderWithin (hl : s.Linked) (ha : s.Acyclic) {f : FragmentId} {x : Fragment}
    (hx : s.fragment? f = some x) : ∃ l, s.preorderWithin s.fragments.length f = .ok l := by
  refine ha.exists_ok hl (fun d f x hx hchildren ↦ ?_) hx
  obtain ⟨ls, hls⟩ := Outcome.exists_mapM hchildren
  exact ⟨_, preorderWithin_succ_eq_ok.mpr ⟨x, ls, hx, hls, rfl⟩⟩

theorem mem_preorderWithin (hl : s.Linked) {d : Nat} {f : FragmentId} {l : List FragmentId}
    (h : s.preorderWithin d f = .ok l) {c : FragmentId} : c ∈ l ↔ s.InTree f c := by
  induction d generalizing f l with
  | zero => cases h
  | succ d ih =>
    obtain ⟨x, ls, hx, hls, rfl⟩ := preorderWithin_succ_eq_ok.mp h
    rw [List.mem_cons, Outcome.mem_flatten_of_mapM hls]
    constructor
    · rintro (rfl | ⟨c', hc', l, hl', hc⟩)
      · exact .refl
      · exact .head ((hl.mem_children hx).mp hc') ((ih hl').mp hc)
    · intro hfc
      rcases Relation.ReflTransGen.cases_head hfc with rfl | ⟨c', hc', hc⟩
      · exact .inl rfl
      · have hmem := (hl.mem_children hx).mpr hc'
        obtain ⟨l, hl'⟩ := Outcome.exists_of_mem_mapM hls hmem
        exact .inr ⟨c', hmem, l, hl', (ih hl').mpr hc⟩

theorem nodup_preorderWithin (hl : s.Linked) (ha : s.Acyclic) {d : Nat} {f : FragmentId}
    {l : List FragmentId} (h : s.preorderWithin d f = .ok l) : l.Nodup := by
  induction d generalizing f l with
  | zero => cases h
  | succ d ih =>
    obtain ⟨x, ls, hx, hls, rfl⟩ := preorderWithin_succ_eq_ok.mp h
    have child {c : FragmentId} (hc : c ∈ x.children) : s.parent? c = some f :=
      (hl.mem_children hx).mp hc
    rw [List.nodup_cons]
    constructor
    · intro hf
      obtain ⟨c, hc, l, hl', hfl⟩ := (Outcome.mem_flatten_of_mapM hls).mp hf
      exact ha.not_inTree (child hc) ((mem_preorderWithin hl hl').mp hfl)
    · apply Outcome.nodup_flatten_of_mapM hls (hl.nodup hx) (fun c _ l hl' ↦ ih hl')
      intro c hc c' hc' hne l l' hcl hcl' g hg hg'
      exact ha.disjoint (child hc) (child hc') hne ((mem_preorderWithin hl hcl).mp hg)
        ((mem_preorderWithin hl hcl').mp hg')

/-- The loop lists the trees of a worklist one after the other, if it may take as many steps as
there are entries. -/
theorem splice_eq_ok {d steps : Nat} {l : List FragmentId} {ls : List (List FragmentId)}
    (h : l.mapM (s.preorderWithin d) = .ok ls) (hsteps : ls.flatten.length ≤ steps) :
    s.splice steps l = .ok ls.flatten := by
  induction steps generalizing l ls with
  | zero =>
    cases l with
    | nil =>
      obtain rfl := List.forall₂_nil_left_iff.mp (Outcome.mapM_eq_ok.mp h)
      rfl
    | cons i rest =>
      obtain ⟨li, lrest, hi, _, rfl⟩ :=
        List.forall₂_cons_left_iff.mp (Outcome.mapM_eq_ok.mp h)
      cases d with
      | zero => cases hi
      | succ d =>
        obtain ⟨x, lc, _, _, rfl⟩ := preorderWithin_succ_eq_ok.mp hi
        simp at hsteps
  | succ steps ih =>
    cases l with
    | nil =>
      obtain rfl := List.forall₂_nil_left_iff.mp (Outcome.mapM_eq_ok.mp h)
      rfl
    | cons i rest =>
      obtain ⟨li, lrest, hi, hrest, rfl⟩ :=
        List.forall₂_cons_left_iff.mp (Outcome.mapM_eq_ok.mp h)
      cases d with
      | zero => cases hi
      | succ d =>
        obtain ⟨x, lc, hx, hlc, rfl⟩ := preorderWithin_succ_eq_ok.mp hi
        have hall : (x.children ++ rest).mapM (s.preorderWithin (d + 1)) = .ok (lc ++ lrest) := by
          refine Outcome.mapM_eq_ok.mpr (List.rel_append ?_ hrest)
          exact (Outcome.mapM_eq_ok.mp hlc).imp fun _ _ h ↦ preorderWithin_succ h
        have hlen : (lc ++ lrest).flatten.length ≤ steps := by
          simp only [List.flatten_cons, List.cons_append, List.length_cons,
            List.length_append, List.flatten_append] at hsteps ⊢
          omega
        have hstep := ih hall hlen
        simp only [splice, Outcome.bind_eq_ok, fragment_eq_ok, Outcome.pure_eq_ok]
        exact ⟨x, hx, _, hstep, by simp⟩

/-- A tree has no more entries than there are links, apart from its root. -/
theorem length_preorderWithin_le (hl : s.Linked) (ha : s.Acyclic) {d : Nat} {f : FragmentId}
    {l : List FragmentId} (h : s.preorderWithin d f = .ok l) : l.length ≤ s.linkCount + 1 := by
  have hnodup := nodup_preorderWithin hl ha h
  have hmem {c : FragmentId} (hc : c ∈ l) : s.InTree f c := (mem_preorderWithin hl h).mp hc
  cases d with
  | zero => cases h
  | succ d =>
    obtain ⟨x, ls, _, _, rfl⟩ := preorderWithin_succ_eq_ok.mp h
    obtain ⟨hf, hnodup⟩ := List.nodup_cons.mp hnodup
    have hsub : ls.flatten ⊆ (s.fragments.map (·.children)).flatten := by
      intro c hc
      rcases Relation.ReflTransGen.cases_tail (hmem (List.mem_cons_of_mem _ hc)) with
        rfl | ⟨p, _, hp⟩
      · exact absurd hc hf
      · obtain ⟨y, hy⟩ := hl.parent hp
        refine List.mem_flatten.mpr ⟨y.children, ?_, (hl.mem_children hy).mpr hp⟩
        exact List.mem_map_of_mem (Numbered.mem_of_get? hy)
    have hcount : (s.fragments.map (·.children)).flatten.length = s.linkCount := by
      rw [List.length_flatten, List.map_map]
      rfl
    rw [List.length_cons, ← hcount]
    exact Nat.succ_le_succ (List.subperm_of_subset hnodup hsub).length_le

/-- The loop gives the recursive listing, however deep the recursion has gone. -/
theorem fragmentTree_of_preorderWithin (hl : s.Linked) (ha : s.Acyclic) {d : Nat} {r : FragmentId}
    {tree : List FragmentId} (h : s.preorderWithin d r = .ok tree) :
    s.fragmentTree r = .ok tree := by
  have hls : [r].mapM (s.preorderWithin d) = .ok [tree] :=
    Outcome.mapM_eq_ok.mpr (.cons h .nil)
  have hle : [tree].flatten.length ≤ s.linkCount + 1 := by
    simpa using length_preorderWithin_le hl ha h
  have hsplice := splice_eq_ok hls (Nat.le_trans hle Nat.lt_two_pow_self)
  rw [fragmentTree, hsplice]
  simp

/-- The loop ends and gives the recursive listing. -/
theorem fragmentTree_eq_ok (hl : s.Linked) (ha : s.Acyclic) {r : FragmentId} {x : Fragment}
    (hx : s.fragment? r = some x) :
    ∃ tree, s.preorderWithin s.fragments.length r = .ok tree ∧ s.fragmentTree r = .ok tree := by
  obtain ⟨tree, htree⟩ := exists_preorderWithin hl ha hx
  exact ⟨tree, htree, fragmentTree_of_preorderWithin hl ha htree⟩

/-- A tree is listed with its root first and each of its fragments once. -/
theorem exists_fragmentTree (hl : s.Linked) (ha : s.Acyclic) {r : FragmentId} {x : Fragment}
    (hx : s.fragment? r = some x) :
    ∃ tree, s.fragmentTree r = .ok tree ∧ tree.head? = some r ∧ tree.Nodup ∧
      ∀ f, f ∈ tree ↔ s.InTree r f := by
  obtain ⟨tree, hwithin, htree⟩ := fragmentTree_eq_ok hl ha hx
  refine ⟨tree, htree, ?_, nodup_preorderWithin hl ha hwithin,
    fun f ↦ mem_preorderWithin hl hwithin⟩
  cases hd : s.fragments.length with
  | zero =>
    rw [hd] at hwithin
    cases hwithin
  | succ d =>
    rw [hd] at hwithin
    obtain ⟨_, ls, _, _, rfl⟩ := preorderWithin_succ_eq_ok.mp hwithin
    rfl

end QueryPlanning.Session
