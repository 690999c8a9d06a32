import QueryPlanning.Catalog.Storage

/-!
# Host numbering

Addresses numbered from 0 in the order in which they were first seen. Replicas and scan ranges carry
these numbers instead of addresses, so a number has to keep its address for good: addresses are only
ever added at the end.
-/

namespace QueryPlanning

structure Hosts where
  addresses : List Address := []
  deriving DecidableEq, Repr, Inhabited

namespace Hosts

def find? (h : Hosts) (a : Address) : Option Nat := h.addresses.idxOf? a

def address? (h : Hosts) (i : Nat) : Option Address := h.addresses[i]?

def size (h : Hosts) : Nat := h.addresses.length

/-- The number of an address, which gets the next free one if it has none yet. -/
def number (h : Hosts) (a : Address) : Nat × Hosts :=
  match h.find? a with
  | some i => (i, h)
  | none => (h.size, ⟨h.addresses ++ [a]⟩)

/-- Numbers addresses one after the other. -/
def numberAll (h : Hosts) : List Address → List Nat × Hosts
  | [] => ([], h)
  | a :: rest =>
    let (i, h) := h.number a
    let (is, h) := h.numberAll rest
    (i :: is, h)

/-- The address of a number survives every later numbering. -/
theorem address?_number {h : Hosts} {i : Nat} {a b : Address} (hi : h.address? i = some b) :
    (h.number a).2.address? i = some b := by
  unfold number
  split
  · exact hi
  · simp only [address?] at hi ⊢
    rw [List.getElem?_append_left (List.getElem?_eq_some_iff.1 hi).1]
    exact hi

end Hosts

end QueryPlanning
