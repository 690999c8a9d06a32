import QueryPlanning.Proofs.Plan.FragmentLinks

/-!
# Listings of fragments

The loop that lists a tree works on the list that it goes over: at each entry it puts the children
right behind it and then takes the next entry. What is in front of the position is never changed
again, so the loop is the one that takes fragments off the front of a worklist. Where parents and
children agree and no fragment lies below itself, both come to the preorder of the tree, and the
list grows no more once every fragment of the tree is on it. The topmost fragments with a property
are found in the same order by a walk that turns back at each of them.
-/

namespace QueryPlanning

theorem eraseDups_of_nodup {α : Type} [BEq α] [LawfulBEq α] {l : List α} (h : l.Nodup) :
    l.eraseDups = l := by
  induction l with
  | nil => rfl
  | cons a l ih =>
    obtain ⟨ha, hl⟩ := List.nodup_cons.mp h
    have hkept : l.filter (fun b ↦ !b == a) = l := by
      rw [List.filter_eq_self]
      intro b hb
      have hne : b ≠ a := by
        rintro rfl
        exact ha hb
      simpa using hne
    rw [List.eraseDups_cons, hkept, ih hl]

namespace Session

variable {s : Session}

/-- From a position on, puts the children of each fragment behind it in the list. -/
def growWithin (s : Session) : Nat → Nat → List FragmentId → Except Error (List FragmentId)
  | 0, position, l => if position < l.length then .error .brokenLink else .ok l
  | rounds + 1, position, l =>
    match l[position]? with
    | none => .ok l
    | some f => do
      let x ← s.fragment f
      s.growWithin rounds (position + 1)
        (l.take (position + 1) ++ x.children ++ l.drop (position + 1))

/-- What lies in front of the position is done. -/
theorem growWithin_append (rounds : Nat) (done rest : List FragmentId) :
    s.growWithin rounds done.length (done ++ rest) = (done ++ ·) <$> s.splice rounds rest := by
  induction rounds generalizing done rest with
  | zero =>
    cases rest with
    | nil => simp [growWithin, splice]
    | cons f rest => simp [growWithin, splice]
  | succ rounds ih =>
    cases rest with
    | nil => simp [growWithin, splice]
    | cons f rest =>
      have hat : (done ++ f :: rest)[done.length]? = some f := by simp
      have hsplit : done ++ f :: rest = (done ++ [f]) ++ rest := by simp
      have hlength : done.length + 1 = (done ++ [f]).length := by simp
      rw [growWithin, splice, hat]
      dsimp only
      cases hx : s.fragment f with
      | error e => rfl
      | ok x =>
        rw [Outcome.ok_bind, Outcome.ok_bind, hsplit, hlength, List.take_left, List.drop_left,
          List.append_assoc, ih]
        cases s.splice rounds (x.children ++ rest) with
        | error e => rfl
        | ok l => simp

theorem growWithin_eq_splice (rounds : Nat) (r : FragmentId) :
    s.growWithin rounds 0 [r] = s.splice rounds [r] := by
  have h := growWithin_append (s := s) rounds [] [r]
  rw [List.nil_append, List.length_nil] at h
  rw [h]
  cases s.splice rounds [r] <;> rfl

/-- The worklist is emptied at one step for each entry. -/
theorem length_le_of_splice {steps : Nat} {l tree : List FragmentId}
    (h : s.splice steps l = .ok tree) : tree.length ≤ steps := by
  induction steps generalizing l tree with
  | zero =>
    cases l with
    | nil =>
      obtain rfl := Except.ok.inj h
      exact Nat.le_refl 0
    | cons f rest => cases h
  | succ steps ih =>
    cases l with
    | nil =>
      obtain rfl := Except.ok.inj h
      exact Nat.zero_le _
    | cons f rest =>
      simp only [splice, Outcome.bind_eq_ok, Outcome.pure_eq_ok] at h
      obtain ⟨x, _, below, hbelow, rfl⟩ := h
      exact Nat.succ_le_succ (ih hbelow)

/-- A tree is listed as its root and then the trees of the children in their order. -/
theorem fragmentTree_children (hl : s.Linked) (ha : s.Acyclic) {r : FragmentId} {x : Fragment}
    (hx : s.fragment? r = some x) : ∃ trees, x.children.mapM s.fragmentTree = .ok trees ∧
      s.fragmentTree r = .ok (r :: trees.flatten) := by
  obtain ⟨tree, hwithin, htree⟩ := fragmentTree_eq_ok hl ha hx
  obtain ⟨y, trees, hy, htrees, rfl⟩ :=
    preorderWithin_succ_eq_ok.mp (preorderWithin_succ hwithin)
  obtain rfl := Option.some.inj (hx.symm.trans hy)
  refine ⟨trees, Outcome.mapM_eq_ok.mpr ?_, htree⟩
  exact (Outcome.mapM_eq_ok.mp htrees).imp fun _ _ ↦ fragmentTree_of_preorderWithin hl ha

/-- Every bound that leaves room for the tree will do for the loop, and no other one. -/
theorem growWithin_eq_ok_iff (hl : s.Linked) (ha : s.Acyclic) {r : FragmentId} {x : Fragment}
    (hx : s.fragment? r = some x) {tree : List FragmentId} (htree : s.fragmentTree r = .ok tree)
    (rounds : Nat) : s.growWithin rounds 0 [r] = .ok tree ↔ tree.length ≤ rounds := by
  rw [growWithin_eq_splice]
  refine ⟨length_le_of_splice, fun hrounds ↦ ?_⟩
  obtain ⟨tree', hwithin, htree'⟩ := fragmentTree_eq_ok hl ha hx
  obtain rfl := Except.ok.inj (htree.symm.trans htree')
  have htrees : [r].mapM (s.preorderWithin s.fragments.length) = .ok [tree] :=
    Outcome.mapM_eq_ok.mpr (.cons hwithin .nil)
  have hsplice := splice_eq_ok htrees (by simpa using hrounds)
  simpa using hsplice

/-- A fragment of the tree at `r` has a property, and no fragment of the tree above it has. -/
structure Topmost (s : Session) (p : Fragment → Bool) (r f : FragmentId) : Prop where
  inTree : s.InTree r f
  holds : ∃ x, s.fragment? f = some x ∧ p x = true
  above {g : FragmentId} {y : Fragment} :
    s.InTree r g → Relation.TransGen (fun g c ↦ s.parent? c = some g) g f →
      s.fragment? g = some y → p y = false

variable {p : Fragment → Bool} {r f : FragmentId} {x : Fragment}

theorem topmost_iff_eq (ha : s.Acyclic) (hx : s.fragment? r = some x) (hp : p x = true) :
    s.Topmost p r f ↔ f = r := by
  constructor
  · intro h
    rcases Relation.reflTransGen_iff_eq_or_transGen.mp h.inTree with heq | hbelow
    · exact heq
    · cases hp.symm.trans (h.above .refl hbelow hx)
  · rintro rfl
    refine ⟨.refl, ⟨x, hx, hp⟩, fun hin habove _ ↦ ?_⟩
    exact absurd (habove.trans_left hin) (ha _)

/-- Below a fragment without the property, the tree of each child is looked at by itself. -/
theorem topmost_iff_child (hl : s.Linked) (ha : s.Acyclic) (hx : s.fragment? r = some x)
    (hp : p x = false) : s.Topmost p r f ↔ ∃ c ∈ x.children, s.Topmost p c f := by
  constructor
  · intro h
    rcases Relation.ReflTransGen.cases_head h.inTree with rfl | ⟨c, hc, hcf⟩
    · obtain ⟨y, hy, hpy⟩ := h.holds
      obtain rfl := Option.some.inj (hx.symm.trans hy)
      cases hp.symm.trans hpy
    · exact ⟨c, (hl.mem_children hx).mpr hc, hcf, h.holds, fun hcg ↦ h.above (.head hc hcg)⟩
  · rintro ⟨c, hc, h⟩
    have hc : s.parent? c = some r := (hl.mem_children hx).mp hc
    refine ⟨.head hc h.inTree, h.holds, fun {g y} hrg hgf hy ↦ ?_⟩
    rcases Relation.ReflTransGen.cases_head hrg with rfl | ⟨c', hc', hcg⟩
    · obtain rfl := Option.some.inj (hx.symm.trans hy)
      exact hp
    · -- The fragment is in the tree of one child only, so what is above it is there as well.
      obtain rfl : c' = c := by
        by_contra hne
        exact ha.disjoint hc' hc hne (hcg.trans hgf.to_reflTransGen) h.inTree
      exact h.above hcg hgf hy

theorem collectWithin_succ_eq_ok {d : Nat} {l : List FragmentId} :
    s.collectWithin p (d + 1) r = .ok l ↔ ∃ x, s.fragment? r = some x ∧
      ((p x = true ∧ l = [r]) ∨
        (p x = false ∧ ∃ ls, x.children.mapM (s.collectWithin p d) = .ok ls ∧ l = ls.flatten)) := by
  simp only [collectWithin, Outcome.bind_eq_ok, fragment_eq_ok]
  refine exists_congr fun x ↦ and_congr_right fun _ ↦ ?_
  cases p x with
  | true =>
    rw [if_pos rfl, Outcome.pure_eq_ok]
    simp [eq_comm]
  | false =>
    simp only [if_neg Bool.false_ne_true, Outcome.bind_eq_ok, Outcome.pure_eq_ok]
    simp [eq_comm]

theorem mem_collectWithin_iff (hl : s.Linked) (ha : s.Acyclic) {d : Nat} {l : List FragmentId}
    (h : s.collectWithin p d r = .ok l) : f ∈ l ↔ s.Topmost p r f := by
  induction d generalizing r l with
  | zero => cases h
  | succ d ih =>
    obtain ⟨x, hx, ⟨hp, rfl⟩ | ⟨hp, ls, hls, rfl⟩⟩ := collectWithin_succ_eq_ok.mp h
    · rw [topmost_iff_eq ha hx hp, List.mem_singleton]
    · rw [topmost_iff_child hl ha hx hp, Outcome.mem_flatten_of_mapM hls]
      constructor
      · rintro ⟨c, hc, l, hl, hf⟩
        exact ⟨c, hc, (ih hl).mp hf⟩
      · rintro ⟨c, hc, hf⟩
        obtain ⟨l, hl⟩ := Outcome.exists_of_mem_mapM hls hc
        exact ⟨c, hc, l, hl, (ih hl).mpr hf⟩

/-- What is found comes in the order of the preorder. -/
theorem sublist_of_collectWithin {d : Nat} {l tree : List FragmentId}
    (h : s.collectWithin p d r = .ok l) (htree : s.preorderWithin d r = .ok tree) :
    l.Sublist tree := by
  induction d generalizing r l tree with
  | zero => cases h
  | succ d ih =>
    obtain ⟨y, trees, hy, htrees, rfl⟩ := preorderWithin_succ_eq_ok.mp htree
    obtain ⟨x, hx, ⟨_, rfl⟩ | ⟨_, ls, hls, rfl⟩⟩ := collectWithin_succ_eq_ok.mp h
    · exact List.singleton_sublist.mpr List.mem_cons_self
    · obtain rfl := Option.some.inj (hx.symm.trans hy)
      exact (Outcome.sublist_flatten_of_mapM hls htrees fun _ _ _ _ ↦ ih).cons r

theorem exists_collectWithin (hl : s.Linked) (ha : s.Acyclic) (hx : s.fragment? r = some x)
    (p : Fragment → Bool) : ∃ l, s.collectWithin p s.fragments.length r = .ok l := by
  refine ha.exists_ok hl (fun d f y hy hchildren ↦ ?_) hx
  cases hp : p y with
  | true => exact ⟨[f], collectWithin_succ_eq_ok.mpr ⟨y, hy, .inl ⟨hp, rfl⟩⟩⟩
  | false =>
    obtain ⟨ls, hls⟩ := Outcome.exists_mapM hchildren
    exact ⟨_, collectWithin_succ_eq_ok.mpr ⟨y, hy, .inr ⟨hp, ls, hls, rfl⟩⟩⟩

theorem mem_collect_iff (hl : s.Linked) (ha : s.Acyclic) {l : List FragmentId}
    (h : s.collect r p = .ok l) : f ∈ l ↔ s.Topmost p r f := by
  simp only [collect, Outcome.bind_eq_ok, Outcome.pure_eq_ok] at h
  obtain ⟨l, hwithin, rfl⟩ := h
  rw [List.mem_eraseDups, mem_collectWithin_iff hl ha hwithin]

/-- A search comes to an end, and nothing is left for it to be found twice. -/
theorem exists_collect (hl : s.Linked) (ha : s.Acyclic) (hx : s.fragment? r = some x)
    (p : Fragment → Bool) : ∃ tree found, s.fragmentTree r = .ok tree ∧
      s.collect r p = .ok found ∧ found.Sublist tree := by
  obtain ⟨tree, hwithin, htree⟩ := fragmentTree_eq_ok hl ha hx
  obtain ⟨found, hfound⟩ := exists_collectWithin hl ha hx p
  have hsub := sublist_of_collectWithin hfound hwithin
  have honce : found.eraseDups = found :=
    eraseDups_of_nodup (hsub.nodup (nodup_preorderWithin hl ha hwithin))
  refine ⟨tree, found, htree, Outcome.bind_eq_ok.mpr ⟨found, hfound, ?_⟩, hsub⟩
  rw [honce]
  rfl

/-- The loop lists a tree in preorder: it ends as soon as it has been at every entry, the root is
followed by the trees of its children in their order, and each fragment is listed once. A search
finds the topmost fragments with a property, in the same order. -/
theorem fragmentTree_preorder (hl : s.Linked) (ha : s.Acyclic) (hx : s.fragment? r = some x) :
    ∃ tree, s.fragmentTree r = .ok tree ∧
      (∀ rounds, s.growWithin rounds 0 [r] = .ok tree ↔ tree.length ≤ rounds) ∧
      (∃ trees, x.children.mapM s.fragmentTree = .ok trees ∧ tree = r :: trees.flatten) ∧
      tree.Nodup ∧ (∀ f, f ∈ tree ↔ s.InTree r f) ∧
      ∀ p, ∃ found, s.collect r p = .ok found ∧ found.Sublist tree ∧
        ∀ f, f ∈ found ↔ s.Topmost p r f := by
  obtain ⟨tree, htree, _, hnodup, hmem⟩ := exists_fragmentTree hl ha hx
  obtain ⟨trees, htrees, htree'⟩ := fragmentTree_children hl ha hx
  have hsplit : tree = r :: trees.flatten := Except.ok.inj (htree.symm.trans htree')
  refine ⟨tree, htree, growWithin_eq_ok_iff hl ha hx htree, ⟨trees, htrees, hsplit⟩, hnodup, hmem,
    fun p ↦ ?_⟩
  obtain ⟨tree', found, htree', hfound, hsub⟩ := exists_collect hl ha hx p
  obtain rfl := Except.ok.inj (htree.symm.trans htree')
  exact ⟨found, hfound, hsub, fun f ↦ mem_collect_iff hl ha hfound⟩

theorem fragmentTree_preorder_handover :
    (Call.run {} Call.handover).fragmentTree ⟨3⟩ = .ok [⟨3⟩, ⟨1⟩, ⟨2⟩, ⟨0⟩] ∧
      (Call.run {} Call.handover).growWithin 4 0 [⟨3⟩] = .ok [⟨3⟩, ⟨1⟩, ⟨2⟩, ⟨0⟩] ∧
      (Call.run {} Call.handover).collect ⟨3⟩ (·.destination.isSome) = .ok [⟨1⟩, ⟨2⟩] ∧
      ¬(Call.run {} Call.handover).Topmost (·.destination.isSome) ⟨3⟩ ⟨0⟩ := by
  have h : (Call.run {} Call.handover).Wired :=
    Call.wired_run (.empty rfl rfl) Call.permits_handover
  obtain ⟨x, hx⟩ : ∃ x, (Call.run {} Call.handover).fragment? ⟨3⟩ = some x :=
    Option.isSome_iff_exists.mp (by decide)
  obtain ⟨tree, htree, hgrow, -, -, -, hcollect⟩ := fragmentTree_preorder h.linked h.acyclic hx
  have hlisting :
      (Call.run {} Call.handover).fragmentTree ⟨3⟩ = .ok [⟨3⟩, ⟨1⟩, ⟨2⟩, ⟨0⟩] := rfl
  obtain rfl := Except.ok.inj (htree.symm.trans hlisting)
  obtain ⟨found, hfound, -, hmem⟩ := hcollect (·.destination.isSome)
  -- The fragment at the bottom feeds an exchange, too, but it lies below one that does.
  have hfeeding :
      (Call.run {} Call.handover).collect ⟨3⟩ (·.destination.isSome) = .ok [⟨1⟩, ⟨2⟩] := rfl
  obtain rfl := Except.ok.inj (hfound.symm.trans hfeeding)
  have hbottom : (⟨0⟩ : FragmentId) ∉ [⟨1⟩, ⟨2⟩] := by decide
  exact ⟨hlisting, (hgrow 4).mpr (by decide), hfound, hbottom ∘ (hmem ⟨0⟩).mpr⟩

end Session

end QueryPlanning
