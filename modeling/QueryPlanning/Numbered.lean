import QueryPlanning.Id

/-!
# Numbered items

Lists of items that carry their own identifiers. Items are looked up and changed by identifier; a
change that keeps the identifiers is seen by exactly one of the lookups.
-/

namespace QueryPlanning.Numbered

variable {α : Type} {kind : IdKind} {idOf : α → Id kind}

/-- The first item with an identifier. -/
def get? (idOf : α → Id kind) (items : List α) (i : Id kind) : Option α :=
  items.find? (idOf · = i)

/-- Changes the items with an identifier. -/
def modify (idOf : α → Id kind) (i : Id kind) (f : α → α) (items : List α) : List α :=
  items.map fun a ↦ if idOf a = i then f a else a

@[simp]
theorem length_modify (i : Id kind) (f : α → α) (items : List α) :
    (modify idOf i f items).length = items.length := by
  simp [modify]

theorem get?_modify {f : α → α} (hf : ∀ a, idOf (f a) = idOf a) (items : List α)
    (i j : Id kind) :
    get? idOf (modify idOf i f items) j =
      if j = i then (get? idOf items j).map f else get? idOf items j := by
  induction items with
  | nil => simp [get?, modify]
  | cons a rest ih =>
    simp only [get?, modify, List.map_cons, List.find?_cons] at ih ⊢
    by_cases ha : idOf a = i
    · by_cases hj : j = i
      · simp [ha, hj, hf]
      · have : ¬i = j := fun h ↦ hj h.symm
        simp only [ha, ↓reduceIte, hf, this, decide_false, hj] at ih ⊢
        exact ih
    · by_cases hj : idOf a = j
      · have : ¬j = i := fun h ↦ ha (hj.trans h)
        simp [hj, this]
      · simp only [ha, ↓reduceIte, hj, decide_false]
        exact ih

theorem idOf_of_get? {items : List α} {i : Id kind} {a : α} (h : get? idOf items i = some a) :
    idOf a = i := by
  simpa using List.find?_some h

theorem mem_of_get? {items : List α} {i : Id kind} {a : α} (h : get? idOf items i = some a) :
    a ∈ items :=
  List.mem_of_find?_eq_some h

end QueryPlanning.Numbered
