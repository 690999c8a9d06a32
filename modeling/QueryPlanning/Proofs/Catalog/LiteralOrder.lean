import QueryPlanning.Catalog.Literal

/-!
# The order of literals

Any two literals compare, and the other way round they compare the opposite way. Transitivity is
another matter: decimals at scales too far apart are compared as doubles, which takes some of
different values for equal. So the order is total on some sets of literals only, among them those
without decimals and those whose decimals share a scale.
-/

namespace QueryPlanning

namespace Decimal

theorem compare_swap (a b : Decimal) : a.compare b = (b.compare a).swap := by
  simp only [Decimal.compare, Nat.max_comm b.scale.toNat]
  split
  · rename_i hx hy
    simp only [hx, hy]
    exact Std.OrientedOrd.eq_swap
  · rename_i hnone
    split
    · rename_i hy hx
      exact absurd hy (hnone _ _ hx)
    · exact Std.OrientedOrd.eq_swap

theorem compare_of_scale {a b : Decimal} (h : a.scale = b.scale) :
    a.compare b = Ord.compare a.unscaled b.unscaled := by
  simp [Decimal.compare, h]

end Decimal

namespace Literal

variable {a b c : Literal}

/-- Literals of different kinds compare by kind. -/
theorem compare_of_rank_ne (h : a.rank ≠ b.rank) : a.compare b = Ord.compare a.rank b.rank := by
  cases a <;> cases b
  all_goals first | rfl | exact absurd rfl h

theorem compare_of_rank_lt (h : a.rank < b.rank) : a.compare b = .lt := by
  rw [compare_of_rank_ne (Nat.ne_of_lt h)]
  exact Nat.compare_eq_lt.mpr h

instance : Std.OrientedCmp Literal.compare where
  eq_swap {a b} := by
    by_cases h : a.rank = b.rank
    · cases a <;> cases b
      case decimal.decimal a b => exact Decimal.compare_swap a b
      all_goals exact Std.OrientedOrd.eq_swap
    · rw [compare_of_rank_ne h, compare_of_rank_ne (Ne.symm h)]
      exact Std.OrientedOrd.eq_swap

theorem compare_swap (a b : Literal) : a.compare b = (b.compare a).swap := Std.OrientedCmp.eq_swap

theorem rank_le_of_isLE (h : (a.compare b).isLE) : a.rank ≤ b.rank := by
  apply Nat.le_of_not_lt
  intro hlt
  have hgt : a.compare b = .gt := Std.OrientedCmp.gt_iff_lt.mpr (compare_of_rank_lt hlt)
  rw [hgt] at h
  cases h

theorem same_iff : a.same b = true ↔ a.compare b = .eq := beq_iff_eq

theorem same_self : a.same a = true :=
  same_iff.mpr Std.ReflCmp.compare_self

theorem isNull_iff : a.isNull = true ↔ a = .null := by
  cases a <;> simp [isNull]

theorem null_compare (h : a.isNull = false) : Literal.null.compare a = .lt := by
  apply compare_of_rank_lt
  cases a with
  | null => cases h
  | _ => exact Nat.succ_pos _

/-- A null is the same as nothing but a null. -/
theorem isNull_eq_of_same (h : a.same b = true) : a.isNull = b.isNull := by
  have heq := same_iff.mp h
  cases ha : a.isNull <;> cases hb : b.isNull
  · rfl
  · rw [isNull_iff.mp hb, Std.OrientedCmp.eq_comm, null_compare ha] at heq
    cases heq
  · rw [isNull_iff.mp ha, null_compare hb] at heq
    cases heq
  · rfl

/-- The literals with a property are in total order, where literals that are the same count as
one. -/
def OrderedOn (P : Literal → Prop) : Prop :=
  Std.TransCmp fun a b : { v : Literal // P v } ↦ a.1.compare b.1

namespace OrderedOn

variable {P Q : Literal → Prop}

theorem mono (h : OrderedOn Q) (hsub : ∀ v, P v → Q v) : OrderedOn P where
  eq_swap := compare_swap _ _
  isLE_trans {a b c} :=
    h.isLE_trans (a := ⟨a, hsub _ a.2⟩) (b := ⟨b, hsub _ b.2⟩) (c := ⟨c, hsub _ c.2⟩)

theorem lt_trans (h : OrderedOn P) (ha : P a) (hb : P b) (hc : P c) (hab : a.compare b = .lt)
    (hbc : b.compare c = .lt) : a.compare c = .lt :=
  @Std.TransCmp.lt_trans _ _ h ⟨a, ha⟩ ⟨b, hb⟩ ⟨c, hc⟩ hab hbc

theorem congr_left (h : OrderedOn P) (ha : P a) (hb : P b) (hc : P c)
    (hab : a.compare b = .eq) : a.compare c = b.compare c :=
  @Std.TransCmp.congr_left _ _ h ⟨a, ha⟩ ⟨b, hb⟩ ⟨c, hc⟩ hab

theorem congr_right (h : OrderedOn P) (ha : P a) (hb : P b) (hc : P c)
    (hbc : b.compare c = .eq) : a.compare b = a.compare c :=
  @Std.TransCmp.congr_right _ _ h ⟨a, ha⟩ ⟨b, hb⟩ ⟨c, hc⟩ hbc

end OrderedOn

/-- Literals are in total order if the decimals among them are. -/
theorem orderedOn_of_decimals {P : Literal → Prop}
    (h : ∀ x y z : Decimal, P (.decimal x) → P (.decimal y) → P (.decimal z) →
      (x.compare y).isLE → (y.compare z).isLE → (x.compare z).isLE) : OrderedOn P where
  eq_swap := compare_swap _ _
  isLE_trans {a b c} hab hbc := by
    obtain ⟨a, ha⟩ := a
    obtain ⟨b, hb⟩ := b
    obtain ⟨c, hc⟩ := c
    have hrank : a.rank ≤ b.rank := rank_le_of_isLE hab
    have hrank' : b.rank ≤ c.rank := rank_le_of_isLE hbc
    by_cases hlt : a.rank < c.rank
    · have hac : a.compare c = .lt := compare_of_rank_lt hlt
      rw [hac]
      rfl
    · have hab' : a.rank = b.rank := by omega
      have hbc' : b.rank = c.rank := by omega
      cases a <;> cases b <;> try contradiction
      all_goals cases c <;> try contradiction
      case decimal.decimal.decimal x y z => exact h x y z ha hb hc hab hbc
      all_goals first | exact Std.TransOrd.isLE_trans hab hbc | rfl

/-- The literals whose decimals share a scale are in total order. -/
theorem orderedOn_scale (scale : UInt8) :
    OrderedOn fun v ↦ ∀ d, v = .decimal d → d.scale = scale := by
  apply orderedOn_of_decimals
  intro x y z hx hy hz hxy hyz
  have hxy' := (hx x rfl).trans (hy y rfl).symm
  have hyz' := (hy y rfl).trans (hz z rfl).symm
  rw [Decimal.compare_of_scale hxy'] at hxy
  rw [Decimal.compare_of_scale hyz'] at hyz
  rw [Decimal.compare_of_scale (hxy'.trans hyz')]
  exact Std.TransOrd.isLE_trans hxy hyz

end Literal

end QueryPlanning
