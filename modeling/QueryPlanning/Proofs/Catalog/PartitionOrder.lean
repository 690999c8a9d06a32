import Mathlib.Data.List.Forall2
import QueryPlanning.Catalog.Partition
import QueryPlanning.Proofs.Catalog.KeyColumns

/-!
# The order of partitions

Partitions are sorted by their key values, column after column, and those with the same values by
their identifiers. Where the values of each column are in total order, so are the partitions, and as
identifiers are never shared, sorting leads to one list whatever the order was before. A column that
does not mix decimals of several scales is in total order.
-/

namespace QueryPlanning

namespace Literal

variable {a b : Literal} {type : ColumnType} {as bs cs : List Literal}

/-- What columns of a type hold: no decimals but those of their own scale. -/
def Fits (type : ColumnType) (v : Literal) : Prop :=
  ∀ d, v = .decimal d → ∃ precision, type = .decimal precision d.scale

theorem Fits.scale_eq {d e : Decimal} (hd : Fits type (.decimal d)) (he : Fits type (.decimal e)) :
    d.scale = e.scale := by
  obtain ⟨_, hd⟩ := hd d rfl
  obtain ⟨_, he⟩ := he e rfl
  exact (ColumnType.decimal.inj (hd.symm.trans he)).2

theorem orderedOn_fits (type : ColumnType) : OrderedOn (Fits type) := by
  apply orderedOn_of_decimals
  intro x y z hx hy hz hxy hyz
  rw [Decimal.compare_of_scale (hx.scale_eq hy)] at hxy
  rw [Decimal.compare_of_scale (hy.scale_eq hz)] at hyz
  rw [Decimal.compare_of_scale (hx.scale_eq hz)]
  exact Std.TransOrd.isLE_trans hxy hyz

/-- Values of one column that are the same in the order of literals are equal. -/
theorem Fits.eq_of_same (ha : Fits type a) (hb : Fits type b) (h : a.same b = true) : a = b := by
  have heq := same_iff.mp h
  have hrank : a.rank = b.rank := by
    apply Decidable.not_not.mp
    intro hne
    rw [compare_of_rank_ne hne] at heq
    exact hne (Nat.compare_eq_eq.mp heq)
  cases a <;> cases b <;> try contradiction
  case null.null => rfl
  case boolean.boolean a b => rw [Std.LawfulEqOrd.eq_of_compare heq]
  case integer.integer a b =>
    rw [Int64.toInt_inj.mp (Std.LawfulEqOrd.eq_of_compare heq)]
  case double.double a b => rw [Double.order_injective (Std.LawfulEqOrd.eq_of_compare heq)]
  case decimal.decimal a b =>
    have hscale := ha.scale_eq hb
    have heq' : a.compare b = .eq := heq
    rw [Decimal.compare_of_scale hscale] at heq'
    have hunscaled := Std.LawfulEqOrd.eq_of_compare heq'
    cases a
    cases b
    congr
  case string.string a b => rw [Std.LawfulEqOrd.eq_of_compare heq]

theorem compareLists_swap (as bs : List Literal) :
    compareLists as bs = (compareLists bs as).swap := by
  induction as generalizing bs with
  | nil => cases bs <;> rfl
  | cons a as ih =>
    cases bs with
    | nil => rfl
    | cons b bs =>
      rw [compareLists, compareLists, Ordering.swap_then, ← compare_swap a b, ← ih]

section Columns

-- What may be in the columns, by whatever tells the columns apart.
variable {ι : Type} {R : ι → Literal → Prop} {columns : List ι}

theorem compareLists_isLE_trans (hR : ∀ i, OrderedOn (R i)) (ha : List.Forall₂ R columns as)
    (hb : List.Forall₂ R columns bs) (hc : List.Forall₂ R columns cs)
    (hab : (compareLists as bs).isLE) (hbc : (compareLists bs cs).isLE) :
    (compareLists as cs).isLE := by
  induction ha generalizing bs cs with
  | nil =>
    cases hc
    rfl
  | @cons i a columns as hfirst _ ih =>
    obtain ⟨b, bs, hb₁, hbs, rfl⟩ := List.forall₂_cons_left_iff.mp hb
    obtain ⟨c, cs, hc₁, hcs, rfl⟩ := List.forall₂_cons_left_iff.mp hc
    have hordered := hR i
    rw [compareLists, Ordering.isLE_then_iff_or] at hab hbc ⊢
    rcases hab with hab | ⟨hab, hrest⟩
    · rcases hbc with hbc | ⟨hbc, -⟩
      · exact .inl (hordered.lt_trans hfirst hb₁ hc₁ hab hbc)
      · exact .inl ((hordered.congr_right hfirst hb₁ hc₁ hbc).symm.trans hab)
    · rw [hordered.congr_left hfirst hb₁ hc₁ hab]
      exact hbc.imp_right fun ⟨hbc, hrest'⟩ ↦ ⟨hbc, ih hbs hcs hrest hrest'⟩

theorem transCmp_compareLists (hR : ∀ i, OrderedOn (R i)) (columns : List ι) :
    Std.TransCmp fun a b : { values : List Literal // List.Forall₂ R columns values } ↦
      compareLists a.1 b.1 where
  eq_swap := compareLists_swap _ _
  isLE_trans {a b c} := compareLists_isLE_trans hR a.2 b.2 c.2

end Columns

end Literal

namespace Partition

variable {ι : Type} {R : ι → Literal → Prop} {columns : List ι} {p q r : Partition}
  {ps qs : List Partition}

/-- Each value is one of its column. -/
def Fits (types : List ColumnType) (p : Partition) : Prop :=
  List.Forall₂ Literal.Fits types p.values

theorem le_iff : le p q = true ↔ Literal.compareLists p.values q.values = .lt ∨
    Literal.compareLists p.values q.values = .eq ∧ p.id.val ≤ q.id.val := by
  unfold le
  cases Literal.compareLists p.values q.values <;> simp

theorem le_trans (hR : ∀ i, Literal.OrderedOn (R i)) (hp : List.Forall₂ R columns p.values)
    (hq : List.Forall₂ R columns q.values) (hr : List.Forall₂ R columns r.values)
    (hpq : le p q = true) (hqr : le q r = true) : le p r = true := by
  have hlists := Literal.transCmp_compareLists hR columns
  rw [le_iff] at hpq hqr ⊢
  rcases hpq with hpq | ⟨hpq, hid⟩
  · rcases hqr with hqr | ⟨hqr, -⟩
    · exact .inl (@Std.TransCmp.lt_trans _ _ hlists ⟨_, hp⟩ ⟨_, hq⟩ ⟨_, hr⟩ hpq hqr)
    · have hpr := @Std.TransCmp.congr_right _ _ hlists ⟨_, hp⟩ ⟨_, hq⟩ ⟨_, hr⟩ hqr
      exact .inl (hpr.symm.trans hpq)
  · have hpr : Literal.compareLists p.values r.values = Literal.compareLists q.values r.values :=
      @Std.TransCmp.congr_left _ _ hlists ⟨_, hp⟩ ⟨_, hq⟩ ⟨_, hr⟩ hpq
    rw [hpr]
    exact hqr.imp_right fun ⟨hqr, hid'⟩ ↦ ⟨hqr, Int.le_trans hid hid'⟩

theorem le_total (p q : Partition) : (le p q || le q p) = true := by
  rw [Bool.or_eq_true, le_iff, le_iff, Literal.compareLists_swap q.values p.values]
  cases Literal.compareLists p.values q.values with
  | lt => exact .inl (.inl rfl)
  | eq => exact (Int.le_total p.id.val q.id.val).imp (fun h ↦ .inr ⟨rfl, h⟩) fun h ↦ .inr ⟨rfl, h⟩
  | gt => exact .inr (.inl rfl)

/-- Only partitions of one identifier are each before the other. -/
theorem id_eq_of_le (hpq : le p q = true) (hqp : le q p = true) : p.id = q.id := by
  rw [le_iff] at hpq hqp
  rw [Literal.compareLists_swap q.values p.values] at hqp
  cases hcmp : Literal.compareLists p.values q.values <;> simp [hcmp] at hpq hqp
  exact congrArg Id.mk (Int.le_antisymm hpq hqp)

theorem mem_sort : p ∈ sort ps ↔ p ∈ ps := (List.mergeSort_perm ps le).mem_iff

theorem pairwise_sort (hR : ∀ i, Literal.OrderedOn (R i))
    (h : ∀ p ∈ ps, List.Forall₂ R columns p.values) :
    (sort ps).Pairwise fun p q ↦ le p q = true := by
  -- The order is total on the partitions of the list only, so they are sorted with what they fit.
  let items : List { p : Partition // List.Forall₂ R columns p.values } := ps.attachWith _ h
  let leItems (a b : { p : Partition // List.Forall₂ R columns p.values }) : Bool := le a.1 b.1
  have hsort : (items.mergeSort leItems).map Subtype.val = sort ps :=
    calc (items.mergeSort leItems).map Subtype.val
        = (items.map Subtype.val).mergeSort le := List.map_mergeSort fun _ _ _ _ ↦ rfl
      _ = sort ps := congrArg sort (List.attachWith_map_subtype_val h)
  have htrans (a b c) : leItems a b = true → leItems b c = true → leItems a c = true :=
    le_trans hR a.2 b.2 c.2
  have htotal (a b) : (leItems a b || leItems b a) = true := le_total a.1 b.1
  rw [← hsort]
  exact List.pairwise_map.mpr (List.pairwise_mergeSort htrans htotal items)

/-- Sorting forgets in which order the partitions were. -/
theorem sort_eq_of_perm (hR : ∀ i, Literal.OrderedOn (R i))
    (h : ∀ p ∈ ps, List.Forall₂ R columns p.values) (hnodup : (ps.map (·.id)).Nodup)
    (hperm : qs.Perm ps) : sort qs = sort ps := by
  have hsorted : (sort qs).Perm (sort ps) :=
    ((List.mergeSort_perm qs le).trans hperm).trans (List.mergeSort_perm ps le).symm
  have hkeys : ∀ p ∈ qs, List.Forall₂ R columns p.values := fun p hp ↦ h p (hperm.mem_iff.mp hp)
  refine hsorted.eq_of_pairwise (fun p q hp hq hpq hqp ↦ ?_) (pairwise_sort hR hkeys)
    (pairwise_sort hR h)
  have hp' : p ∈ ps := hperm.mem_iff.mp (mem_sort.mp hp)
  exact eq_of_id hnodup (mem_sort.mp hq) hp' (id_eq_of_le hpq hqp)

end Partition

end QueryPlanning
