import QueryPlanning.Proofs.Catalog.KeyLookup

/-!
# Decimals as keys

A column of decimals stores what it is given at its own scale, where each value has one number. So
two of its decimals are the same if and only if they have the same value, and if and only if the
names of their directories show the same text.
-/

namespace QueryPlanning

variable {d e : Decimal}

theorem Decimal.value_eq_iff_of_scale (h : d.scale = e.scale) : d.value = e.value ↔ d = e := by
  refine ⟨fun hvalue ↦ ?_, congrArg Decimal.value⟩
  have hnear : e.unscaled = 0 → Near e.scale d.scale := fun _ ↦ h ▸ ⟨by omega, by omega⟩
  have hself := rescale?_of_value hvalue hnear
  rw [h, rescale?_scale] at hself
  exact (Option.some.inj hself).symm

theorem Literal.same_decimal_iff (h : d.scale = e.scale) :
    (Literal.decimal d).same (.decimal e) = true ↔ d = e := by
  constructor
  · intro hsame
    have hd : Fits (.decimal 0 e.scale) (.decimal d) := h ▸ fits_decimal 0 d
    exact Literal.decimal.inj (hd.eq_of_same (fits_decimal 0 e) hsame)
  · rintro rfl
    exact same_self

namespace Table

variable {t t₀ : Table} {p q : Partition} {ops : List TableOp} {values : List Literal}
  {columns : List Column} {col : Nat} {precision scale : UInt8}

/-- A decimal has the value that it came in with. -/
theorem AddedWith.exists_value (h : t.AddedWith ops values p) (hascends : Ascends t ops)
    (htype : t.keyTypes[col]? = some (.decimal precision scale))
    (hd : p.values[col]? = some (.decimal d)) :
    ∃ d₀, values[col]? = some (.decimal d₀) ∧ d.value = d₀.value := by
  obtain ⟨columns, hcolumns, hstored⟩ := h.storedValues_eq hascends
  rw [← hcolumns] at htype
  obtain ⟨v, hv, hrescale⟩ := exists_rescale?_of_storedValues hstored htype hd
  obtain ⟨d₀, rfl, hd₀⟩ := exists_decimal_of_rescale? hrescale
  exact ⟨d₀, hv, Decimal.value_of_rescale? hd₀⟩

/-- In a table that any calls led to, the decimals in a column of decimals have its scale and the
values that their partitions were added with. Two of them are the same if and only if they have the
same value, and if and only if they have the same text. -/
theorem same_iff_keyText_run {database name baseDirectory : String} {clustering : Nat}
    (hnew : Table.new database name columns clustering baseDirectory = .ok t₀)
    (hrun : t₀.run ops = t) (htype : t.keyTypes[col]? = some (.decimal precision scale)) :
    (∀ p ∈ t.partitions, ∀ d, p.values[col]? = some (.decimal d) →
        d.scale = scale ∧ (∃ values, t₀.AddedWith ops values p) ∧
          ∀ values, t₀.AddedWith ops values p →
            ∃ d₀, values[col]? = some (.decimal d₀) ∧ d.value = d₀.value) ∧
      ∀ p ∈ t.partitions, ∀ q ∈ t.partitions, ∀ d e,
        p.values[col]? = some (.decimal d) → q.values[col]? = some (.decimal e) →
          ((Literal.decimal d).same (.decimal e) = true ↔ d.value = e.value) ∧
          ((Literal.decimal d).same (.decimal e) = true ↔
            (Literal.decimal d).keyText t.nullKey = (Literal.decimal e).keyText t.nullKey) := by
  subst hrun
  have hascends := Ascends.of_new hnew ops
  have hempty : t₀.partitions = [] := by
    obtain ⟨_, _, _, rfl⟩ := new_eq_ok hnew
    rfl
  rw [run_keyTypes] at htype
  have hscale {p : Partition} {d : Decimal} (hp : p ∈ (t₀.run ops).partitions)
      (hd : p.values[col]? = some (.decimal d)) : d.scale = scale :=
    scaled_run hempty ops p hp col precision scale d htype hd
  refine ⟨fun p hp d hd ↦ ?_, fun p hp q hq d e hd he ↦ ?_⟩
  · exact ⟨hscale hp hd, hascends.exists_addedWith hp,
      fun values hadded ↦ hadded.exists_value hascends htype hd⟩
  · have hscales : d.scale = e.scale := (hscale hp hd).trans (hscale hq he).symm
    rw [Literal.same_decimal_iff hscales, Decimal.value_eq_iff_of_scale hscales]
    exact ⟨Iff.rfl, congrArg Decimal.text, Decimal.text_injective⟩

/-- One price with no and with two digits after the point, and then another price. -/
def pricingOps : List TableOp :=
  [.create [.decimal ⟨1, 0, rfl⟩] "/1" .text [], .create [.decimal ⟨100, 2, rfl⟩] "/2" .text [],
    .create [.decimal ⟨12, 1, rfl⟩] "/3" .text []]

theorem same_iff_keyText_run_prices :
    (prices.run pricingOps).partitions.map (·.values) =
        [[.decimal unitPrice], [.decimal unitPrice], [.decimal ⟨12, 1, rfl⟩]] ∧
      unitPrice.value = Decimal.value ⟨100, 2, rfl⟩ ∧
      (Literal.decimal unitPrice).same (.decimal ⟨12, 1, rfl⟩) = false := by
  let second : Partition :=
    { id := ⟨2⟩, values := [.decimal unitPrice], location := "/2", format := .text }
  let third : Partition :=
    { id := ⟨3⟩, values := [.decimal ⟨12, 1, rfl⟩], location := "/3", format := .text }
  have hpartitions : (prices.run pricingOps).partitions = [unitPartition, second, third] := by rfl
  have hsecond : second ∈ (prices.run pricingOps).partitions := by
    rw [hpartitions]
    exact List.mem_cons_of_mem _ List.mem_cons_self
  have hthird : third ∈ (prices.run pricingOps).partitions := by
    rw [hpartitions]
    exact List.mem_cons_of_mem _ (List.mem_cons_of_mem _ List.mem_cons_self)
  have hadded : prices.AddedWith pricingOps [.decimal ⟨100, 2, rfl⟩] second :=
    ⟨hsecond, pricingOps.take 1, _, List.prefix_append _ (pricingOps.drop 2), rfl, rfl⟩
  have htype : (prices.run pricingOps).keyTypes[0]? = some (.decimal 6 1) := rfl
  obtain ⟨hstored, htexts⟩ := same_iff_keyText_run new_prices rfl htype
  obtain ⟨-, -, hvalues⟩ := hstored second hsecond unitPrice rfl
  obtain ⟨_, ⟨⟩, hvalue⟩ := hvalues _ hadded
  obtain ⟨-, htext⟩ := htexts second hsecond third hthird unitPrice ⟨12, 1, rfl⟩ rfl rfl
  refine ⟨congrArg _ hpartitions, hvalue, Bool.eq_false_iff.mpr fun hsame ↦ ?_⟩
  exact absurd (htext.mp hsame) (by decide)

end Table

end QueryPlanning
