import QueryPlanning.Id

/-!
# Sets of partitions

A set of partition identifiers as an ascending list without repetitions, so that two sets with the
same members are the same list.
-/

namespace QueryPlanning

abbrev IdSet := List PartitionId

namespace IdSet

/-- Puts an identifier into its place, once. -/
def insert (i : PartitionId) : IdSet → IdSet
  | [] => [i]
  | j :: rest =>
    if i.val < j.val then i :: j :: rest
    else if i = j then j :: rest
    else j :: insert i rest

@[simp]
theorem mem_insert {i j : PartitionId} {s : IdSet} : i ∈ insert j s ↔ i = j ∨ i ∈ s := by
  induction s with
  | nil => simp [insert]
  | cons k rest ih =>
    unfold insert
    split
    · simp
    · split
      · rename_i h
        subst h
        simp
      · simp only [List.mem_cons, ih]
        constructor
        · rintro (h | h | h) <;> simp [h]
        · rintro (h | h | h) <;> simp [h]

def ofList (ids : List PartitionId) : IdSet := ids.foldr insert []

/-- All members of both sets. -/
def union (s t : IdSet) : IdSet := s.foldr insert t

@[simp]
theorem mem_union {i : PartitionId} {s t : IdSet} : i ∈ union s t ↔ i ∈ s ∨ i ∈ t := by
  induction s with
  | nil => simp [union]
  | cons j rest ih =>
    simp only [union, List.foldr_cons, mem_insert, List.mem_cons] at ih ⊢
    rw [ih]
    constructor
    · rintro (h | h | h) <;> simp [h]
    · rintro ((h | h) | h) <;> simp [h]

end IdSet

end QueryPlanning
