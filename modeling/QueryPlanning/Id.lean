/-!
# Identifiers

Partitions, plan nodes, fragments, plans, cohorts and join tables are numbered. An `Id` says in its
type what it numbers, so that a node cannot stand where a fragment is meant. Negative numbers
identify nothing; `Id.invalid` is the one used for "not assigned yet".
-/

namespace QueryPlanning

inductive IdKind
  | partition
  | node
  | fragment
  /-- A plan that can run on its own: a tree of fragments. -/
  | plan
  /-- The plans that feed the joins of one plan. -/
  | cohort
  /-- A slot for the rows of a join's build side. -/
  | joinTable
  deriving DecidableEq, Repr

structure Id (kind : IdKind) where
  val : Int
  deriving DecidableEq, Repr

abbrev PartitionId := Id .partition
abbrev NodeId := Id .node
abbrev FragmentId := Id .fragment
abbrev PlanId := Id .plan
abbrev CohortId := Id .cohort
abbrev JoinTableId := Id .joinTable

namespace Id

variable {kind : IdKind}

def invalid : Id kind := ⟨-1⟩

instance : Inhabited (Id kind) := ⟨invalid⟩

def isValid (i : Id kind) : Bool := 0 ≤ i.val

def ofNat (n : Nat) : Id kind := ⟨n⟩

@[simp]
theorem isValid_ofNat (n : Nat) : (ofNat n : Id kind).isValid = true := by
  simp [isValid, ofNat]

/-- The position of the identified item in a list numbered from 0. -/
def index? (i : Id kind) : Option Nat :=
  match i.val with
  | .ofNat n => some n
  | .negSucc _ => none

/-- At least two digits; a minus sign counts as one. -/
def text (i : Id kind) : String :=
  if 0 ≤ i.val && i.val < 10 then "0" ++ toString i.val else toString i.val

end Id

/-- Hands out the numbers from `next` upwards, each once. -/
structure IdSource (kind : IdKind) where
  next : Int := 0
  deriving DecidableEq, Repr

namespace IdSource

variable {kind : IdKind}

/-- The identifier that `take` would hand out. -/
def peek (s : IdSource kind) : Id kind := ⟨s.next⟩

def take (s : IdSource kind) : Id kind × IdSource kind :=
  (s.peek, ⟨s.next + 1⟩)

@[simp]
theorem take_snd_next (s : IdSource kind) : s.take.2.next = s.next + 1 := rfl

end IdSource

end QueryPlanning
